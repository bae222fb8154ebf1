import RecordSort.Proofs.Merge.Scanning
import RecordSort.Proofs.Merge.Tallies

/-! # How often a merger asks its feeds

All feeds are asked once before the first record is handed out. From then on one answer is due from every
feed, except from the one whose record was handed out last: that feed is asked when the next record is
wanted. So every feed has been asked once more than it has records among those handed out, and the feed of
the latest record as often as that. A feed that has no record, or fails, is not asked any more.

* **`Merger.handedOut`** — the heads that a number of calls hand out.
* **`Merger.Stands`** — where a merger stands between two calls; `Stands.next` says that a call keeps it.
* **`asked_after`** — how often each feed was asked, and what became of its records. -/

namespace RecordSort

open Head (recordsOf)

namespace Merger

section Calls

variable {φ : Type} [RecordFeed φ]

/-- The head that a call **hands out**, if it hands one out. -/
def handedBy (out : RecordAnswer × Merger φ) : Option Head :=
  (recordOf out.1).bind fun r => out.2.pending.map fun i => ⟨r, i⟩

/-- The head that is handed out by the call after `n` others. -/
def handedAt (m : Merger φ) (n : Nat) : Option Head := handedBy (RecordFeed.after m n).next

/-- The heads that the first `n` calls hand out. -/
def handedOut (m : Merger φ) (n : Nat) : List Head := (List.range n).filterMap m.handedAt

/-- One call more hands out one record more, or none. -/
theorem handedOut_succ (m : Merger φ) (n : Nat) :
    m.handedOut (n + 1) = m.handedOut n ++ (m.handedAt n).toList := by
  rw [handedOut, handedOut, List.range_succ, List.filterMap_append]
  cases h : m.handedAt n <;> simp [h]

/-- Every record that a call answers with is a head that it hands out. -/
theorem record_handedBy (m : Merger φ) : (handedBy m.next).map (·.record) = recordOf m.next.1 := by
  have hnone : ∀ m' : Merger φ, (handedBy (.ok none, m')).map (·.record) = none := fun _ => rfl
  unfold Merger.next
  split
  · exact hnone m
  rcases m.askDue with ⟨e | _, m'⟩
  · rfl
  dsimp only
  cases hpop : m'.heads.pop (Head.order m'.order) with
  | none => rw [handOut_of_none hpop]; rfl
  | some out => rw [handOut_of_some hpop]; rfl

/-- The answers of a merger are the records of the heads that it hands out. -/
theorem map_recordOf_answers (m : Merger φ) (n : Nat) :
    (RecordFeed.answers m n).map recordOf =
      (List.range n).map fun k => (m.handedAt k).map (·.record) := by
  induction n with
  | zero => rfl
  | succ n ih =>
    rw [RecordFeed.answers_add, List.map_append, ih, List.range_succ, List.map_append]
    congr 1
    exact congrArg (fun r => [r]) (record_handedBy (RecordFeed.after m n)).symm

/-- One call more is a call on what there is after the others. -/
theorem after_succ (m : Merger φ) (n : Nat) :
    RecordFeed.after m (n + 1) = (RecordFeed.after m n).next.2 := by
  rw [RecordFeed.after_add]
  rfl

/-- After a call that hands nothing out the merger stays as it is. -/
theorem after_of_handedAt_eq_none {m : Merger φ} {k n : Nat} (hk : k ≤ n) (h : m.handedAt k = none) :
    RecordFeed.after m (n + 1) = RecordFeed.after m (k + 1) := by
  have hrecord : recordOf (RecordFeed.after m k).next.1 = none := by
    rw [← record_handedBy]
    exact congrArg _ h
  have hidle : (RecordFeed.after m (k + 1)).Idle := by
    rw [after_succ]
    apply idle_next
    intro r hr
    simp [hr, recordOf] at hrecord
  obtain ⟨rest, rfl⟩ := Nat.exists_eq_add_of_le hk
  rw [Nat.add_right_comm, RecordFeed.after_add, hidle.after]

end Calls

variable {φ : Type} [RecordFeed φ] {feeds front rest : List φ} {handed : List Head}
  {m : Merger (Counted φ)}

/-- The merge of feeds that count how often they are asked, before anything was asked for. -/
def counting (order : Record → Record → Ordering) (feeds : List φ) : Merger (Counted φ) :=
  ofFeeds order (feeds.map fun f => { feed := f })

/-! ## The first call -/

/-- Whether a feed **fails at first**, when it is asked for the first time. -/
def failsFirst (f : φ) : Bool :=
  match (RecordFeed.next f).1 with
  | .error _ => true
  | .ok _ => false

/-- What is due when the feeds of a list, and no others behind them, have been asked once. -/
def firstAnswers (asked : List φ) (i : Nat) : List RecordAnswer :=
  (asked[i]?.map fun f => (RecordFeed.next f).1).toList

/-- One answer is due from a feed that has been asked, and none from others. -/
theorem length_firstAnswers (asked : List φ) (i : Nat) :
    (firstAnswers asked i).length = if i < asked.length then 1 else 0 := by
  unfold firstAnswers
  by_cases hi : i < asked.length
  · simp [hi]
  · simp [hi]

/-- Another feed is asked. -/
theorem update_firstAnswers (front : List φ) (f : φ) :
    Function.update (firstAnswers front) front.length [(RecordFeed.next f).1] =
      firstAnswers (front ++ [f]) := by
  funext i
  by_cases hi : i = front.length
  · rw [hi, Function.update_self]
    simp [firstAnswers]
  · rw [Function.update_of_ne hi]
    unfold firstAnswers
    by_cases hlt : i < front.length
    · rw [List.getElem?_append_left hlt]
    · rw [List.getElem?_eq_none (by omega), List.getElem?_eq_none (by simp; omega)]

/-- Before anything was asked for, nothing is due. -/
theorem keeps_counting (order : Record → Record → Ordering) (feeds : List φ) :
    (counting order feeds).Keeps feeds [] (firstAnswers ([] : List φ)) := by
  refine ⟨⟨List.length_map _, ?_, ?_, fun i _ => ⟨rfl, rfl⟩⟩, ?_, ?_⟩
  · intro i f c hf hc
    obtain rfl : ({ feed := f } : Counted φ) = c := by simpa [counting, ofFeeds, hf] using hc
    rfl
  · intro i f c hf hc
    obtain rfl : ({ feed := f } : Counted φ) = c := by simpa [counting, ofFeeds, hf] using hc
    rfl
  · simp [counting, ofFeeds]
  · intro i
    refine ⟨Nat.zero_le 1, List.Perm.refl _, ?_⟩
    simp [counting, ofFeeds, firstAnswers, List.getElem?_replicate]

/-- **Asking feeds for the first time** stops at the first one that fails. -/
theorem Keeps.askAll (h : m.Keeps (front ++ rest) [] (firstAnswers front)) :
    let out := m.askAll (List.range' front.length rest.length)
    match rest.findIdx? failsFirst with
    | none => out.1 = .ok () ∧ out.2.Keeps (front ++ rest) [] (firstAnswers (front ++ rest))
    | some s =>
      ∃ e, out.1 = .error e ∧
        out.2.Keeps (front ++ rest) [] (firstAnswers (front ++ rest.take (s + 1))) := by
  induction rest generalizing m front with
  | nil =>
    refine ⟨rfl, ?_⟩
    rw [List.append_nil] at h ⊢
    exact h
  | cons f rest ih =>
    have hf : (front ++ f :: rest)[front.length]? = some f := by simp
    have hdue : firstAnswers front front.length = [] := by simp [firstAnswers]
    obtain ⟨hanswer, hkeeps⟩ := h.ask hf hdue
    rw [recordsOf_nil, List.length_nil, RecordFeed.after] at hanswer hkeeps
    rw [update_firstAnswers] at hkeeps
    rw [List.length_cons, List.range'_succ, List.findIdx?_cons]
    unfold Merger.askAll
    rcases ha : m.ask front.length with ⟨e | _, m'⟩ <;> rw [ha] at hanswer hkeeps <;>
      rcases hn : (RecordFeed.next f).1 with e' | r <;> rw [hn] at hanswer <;>
      simp only [Except.map, reduceCtorEq] at hanswer
    · have hfails : failsFirst f = true := by rw [failsFirst, hn]
      rw [if_pos hfails]
      exact ⟨e, rfl, hkeeps⟩
    · have hfails : ¬ failsFirst f = true := by rw [failsFirst, hn]; simp
      rw [if_neg hfails]
      have hrest := @ih (front ++ [f]) m' (by simpa using hkeeps)
      cases hidx : rest.findIdx? failsFirst with
      | none => simpa [hidx] using hrest
      | some s => simpa [hidx] using hrest

/-- How often feeds have been asked if feed `s` was the last one. -/
theorem Keeps.asked_eq_first {s i : Nat} {c : Counted φ}
    (h : m.Keeps feeds [] (firstAnswers (feeds.take (s + 1)))) (hc : m.feeds[i]? = some c) :
    c.asked = if i ≤ s then 1 else 0 := by
  obtain ⟨f, hf⟩ := h.tallies.getElem?_feeds hc
  have hi : i < feeds.length := (List.getElem?_eq_some_iff.1 hf).1
  rw [h.tallies.asked_eq hc, recordsOf_nil, List.length_nil, Nat.zero_add, length_firstAnswers,
    List.length_take]
  by_cases his : i ≤ s
  · rw [if_pos his, if_pos (by omega)]
  · rw [if_neg his, if_neg (by omega)]

/-! ## Later calls -/

/-- **Where a merger stands between two calls**: it has handed out `handed`, and `latest` by the latest
call. One answer is due from every feed, except from the one of the latest head. -/
structure Stands (m : Merger (Counted φ)) (feeds : List φ) (handed : List Head)
    (latest : Option Head) : Prop where
  started : m.started = true
  pending : m.pending = latest.map (·.feed)
  failed : m.failed = true → latest = none
  keeps : ∃ due, m.Keeps feeds handed due ∧
    ∀ i < feeds.length, (due i).length = if latest.map (·.feed) = some i then 0 else 1
  /-- The latest head came from one of the feeds. -/
  known : ∀ top, latest = some top → top.feed < feeds.length

/-- The merger hands out a head, if there is one, and then nothing is due from its feed. -/
theorem Stands.handOut (h : m.Stands feeds handed none) (hfailed : m.failed = false) :
    m.handOut.2.Stands feeds (handed ++ (handedBy m.handOut).toList) (handedBy m.handOut) := by
  obtain ⟨due, hkeeps, hdue⟩ := h.keeps
  rcases hkeeps.handOut with hout | ⟨top, heads, hout, htop, hkeeps'⟩
  · rw [hout]
    simpa [handedBy, recordOf] using h
  have hby : handedBy m.handOut = some top := by rw [hout]; rfl
  have hlt : top.feed < feeds.length := by
    by_contra hge
    have := (hkeeps.tallies.beyond top.feed (Nat.le_of_not_lt hge)).2
    simp [htop] at this
  rw [hby]
  refine ⟨?_, ?_, ?_, ⟨_, hkeeps', ?_⟩, ?_⟩
  · rw [hout]
    exact h.started
  · rw [hout]
    rfl
  · intro hfail
    rw [hout] at hfail
    simp [hfailed] at hfail
  · intro i hi
    by_cases hit : i = top.feed
    · rw [hit, Function.update_self]
      simp
    · rw [Function.update_of_ne hit, hdue i hi]
      simp [Ne.symm hit]
  · intro top' htop'
    rw [← Option.some.inj htop']
    exact hlt

/-- The merger asks the feed of the latest head, and then an answer is due from every feed. -/
theorem Stands.askPending {latest : Option Head} (h : m.Stands feeds handed latest) :
    m.askPending.2.Stands feeds handed none ∧ m.askPending.2.failed = m.failed := by
  obtain ⟨due, hkeeps, hdue⟩ := h.keeps
  unfold Merger.askPending
  rw [h.pending]
  cases latest with
  | none => exact ⟨h, rfl⟩
  | some top =>
    obtain ⟨f, hf⟩ : ∃ f, feeds[top.feed]? = some f :=
      ⟨_, List.getElem?_eq_getElem (h.known top rfl)⟩
    have hnone : due top.feed = [] := by
      have := hdue top.feed (h.known top rfl)
      simpa using this
    have hkeeps' : Keeps { m with pending := none } feeds handed due := hkeeps.congr rfl rfl rfl
    have hcontrol := sameControl_ask { m with pending := none } top.feed
    obtain ⟨-, hasked⟩ := hkeeps'.ask hf hnone
    refine ⟨⟨hcontrol.started.trans h.started, hcontrol.pending, fun _ => rfl, ⟨_, hasked, ?_⟩, ?_⟩,
      hcontrol.failed⟩
    · intro i hi
      by_cases hit : i = top.feed
      · rw [hit, Function.update_self]
        rfl
      · rw [Function.update_of_ne hit, hdue i hi]
        simp [Ne.symm hit]
    · intro top' htop'
      simp at htop'

/-- **A call keeps the merger where it stands**, with the head that it hands out. -/
theorem Stands.next {latest : Option Head} (h : m.Stands feeds handed latest) :
    m.next.2.Stands feeds (handed ++ (handedBy m.next).toList) (handedBy m.next) := by
  by_cases hfailed : m.failed = true
  · rw [Merger.next, if_pos hfailed]
    have hlatest := h.failed hfailed
    rw [hlatest] at h
    simpa [handedBy, recordOf] using h
  obtain ⟨hstands, hsame⟩ := h.askPending
  have hdue : m.askDue = m.askPending := by rw [askDue, start, if_pos h.started]
  rw [Merger.next, if_neg hfailed, hdue]
  rcases ha : m.askPending with ⟨e | _, m'⟩ <;> rw [ha] at hstands hsame
  · obtain ⟨due, hkeeps, hlength⟩ := hstands.keeps
    have hkeeps' : Keeps { m' with failed := true } feeds handed due := hkeeps.congr rfl rfl rfl
    simp only [handedBy, recordOf, Option.bind_none, Option.toList_none, List.append_nil]
    exact ⟨hstands.started, hstands.pending, fun _ => rfl, ⟨due, hkeeps', hlength⟩, hstands.known⟩
  · exact hstands.handOut (by simpa [hfailed] using hsame)

/-- A feed has been asked **once more than records of it were handed out**, unless its record is the latest one.
-/
theorem Stands.asked_eq {latest : Option Head} (h : m.Stands feeds handed latest) {i : Nat}
    {c : Counted φ} (hc : m.feeds[i]? = some c) :
    c.asked = (recordsOf i handed).length + if latest.map (·.feed) = some i then 0 else 1 := by
  obtain ⟨due, hkeeps, hdue⟩ := h.keeps
  obtain ⟨f, hf⟩ := hkeeps.tallies.getElem?_feeds hc
  rw [hkeeps.tallies.asked_eq hc, hdue i (List.getElem?_eq_some_iff.1 hf).1]

/-! ## All calls -/

section Runs

variable (order : Record → Record → Ordering)

/-- **The first call** asks all feeds. It hands out a head, if none of them fails, and is over with an error
after the first one that does. -/
theorem next_counting (feeds : List φ) :
    let m := counting order feeds
    match feeds.findIdx? failsFirst with
    | none => m.next.2.Stands feeds (handedBy m.next).toList (handedBy m.next)
    | some s => (∃ e, m.next.1 = .error e) ∧ m.next.2.failed = true ∧
        m.next.2.Keeps feeds [] (firstAnswers (feeds.take (s + 1))) := by
  intro m
  have hkeeps : Keeps { m with started := true } ([] ++ feeds) [] (firstAnswers ([] : List φ)) :=
    (keeps_counting order feeds).congr rfl rfl rfl
  have hall := hkeeps.askAll
  have hcontrol := sameControl_askAll { m with started := true } (List.range' 0 feeds.length)
  have hstart : m.start = { m with started := true }.askAll (List.range' 0 feeds.length) := by
    have hlength : m.feeds.length = feeds.length := List.length_map _
    rw [start, hlength, List.range_eq_range']
    rfl
  have hrunning : ¬ m.failed = true := Bool.false_ne_true
  rw [Merger.next, if_neg hrunning, askDue, hstart]
  rw [List.nil_append, List.length_nil] at hall
  rcases ha : ({ m with started := true } : Merger (Counted φ)).askAll (List.range' 0 feeds.length) with
    ⟨e | _, m'⟩ <;> rw [ha] at hall hcontrol <;>
    cases hidx : feeds.findIdx? failsFirst <;> rw [hidx] at hall
  · simp at hall
  · obtain ⟨-, -, hkeeps'⟩ := hall
    exact ⟨⟨e, rfl⟩, rfl, hkeeps'.congr rfl rfl rfl⟩
  · have hpending : m'.askPending = (.ok (), m') := by
      have hnone : m'.pending = none := hcontrol.pending
      rw [Merger.askPending, hnone]
    have hstands : m'.Stands feeds [] none := by
      refine ⟨hcontrol.started, hcontrol.pending, fun _ => rfl, ⟨_, hall.2, ?_⟩, ?_⟩
      · intro i hi
        rw [length_firstAnswers, if_pos hi]
        rfl
      · intro top htop
        simp at htop
    dsimp only
    rw [hpending]
    exact hstands.handOut hcontrol.failed
  · simp at hall

/-- **Between any two calls** the merger stands where it should, unless a feed failed at first. -/
theorem stands_after (h : feeds.findIdx? failsFirst = none) (n : Nat) :
    (RecordFeed.after (counting order feeds) (n + 1)).Stands feeds
      ((counting order feeds).handedOut (n + 1)) ((counting order feeds).handedAt n) := by
  induction n with
  | zero =>
    have hfirst := next_counting order feeds
    rw [h] at hfirst
    exact hfirst
  | succ n ih =>
    rw [after_succ, handedOut_succ]
    exact ih.next

/-- If a feed failed at first, nothing is handed out and nothing is asked any more. -/
theorem keeps_after {s : Nat} (h : feeds.findIdx? failsFirst = some s) (n : Nat) :
    (∃ e, (counting order feeds).next.1 = .error e) ∧
      (counting order feeds).handedOut (n + 1) = [] ∧
      (RecordFeed.after (counting order feeds) (n + 1)).Keeps feeds []
        (firstAnswers (feeds.take (s + 1))) := by
  have hfirst := next_counting order feeds
  rw [h] at hfirst
  obtain ⟨⟨e, herror⟩, hfailed, hkeeps⟩ := hfirst
  have hidle : (counting order feeds).next.2.Idle := Or.inl hfailed
  have hafter : RecordFeed.after (counting order feeds) (n + 1) = (counting order feeds).next.2 :=
    hidle.after n
  refine ⟨⟨e, herror⟩, ?_, hafter ▸ hkeeps⟩
  rw [handedOut, List.filterMap_eq_nil_iff]
  intro k _
  cases k with
  | zero =>
    show handedBy (counting order feeds).next = none
    rw [handedBy, herror]
    rfl
  | succ k =>
    have hk : RecordFeed.after (counting order feeds) (k + 1) = (counting order feeds).next.2 :=
      hidle.after k
    rw [handedAt, hk, hidle.next]
    rfl

/-- **After one call or more** the merger keeps what is due from its feeds. -/
theorem exists_keeps_after (feeds : List φ) (n : Nat) :
    ∃ due, (RecordFeed.after (counting order feeds) (n + 1)).Keeps feeds
      ((counting order feeds).handedOut (n + 1)) due := by
  cases hidx : feeds.findIdx? failsFirst with
  | none =>
    obtain ⟨due, hkeeps, -⟩ := (stands_after order hidx n).keeps
    exact ⟨due, hkeeps⟩
  | some s =>
    obtain ⟨-, hnone, hkeeps⟩ := keeps_after order hidx n
    exact ⟨_, hnone.symm ▸ hkeeps⟩

/-- What becomes of the records of feed `i` whose answers are tallied: they were handed out, in order, but
for one, which is a head. Only the last answer may be none. -/
theorem Keeps.records {due : Nat → List RecordAnswer} (h : m.Keeps feeds handed due) {i : Nat} {f : φ}
    {c : Counted φ} (hf : feeds[i]? = some f) (hc : m.feeds[i]? = some c) :
    (RecordFeed.answers f c.asked).filterMap recordOf =
        recordsOf i handed ++ recordsOf i m.heads.toList ∧
      (recordsOf i m.heads.toList).length ≤ 1 ∧
      ∀ k a, (RecordFeed.answers f c.asked)[k]? = some a → recordOf a = none → k + 1 = c.asked := by
  have hsingle := (h.each i).single
  rw [(h.each i).recordsOf_heads]
  refine ⟨?_, Nat.le_trans (List.length_filterMap_le ..) hsingle, ?_⟩
  · rw [h.tallies.answers i f c hf hc, List.filterMap_append]
    congr 1
    simp [List.filterMap_map, Function.comp_def, recordOf]
  · intro k a ha hnone
    have hasked := h.tallies.asked_eq hc
    have hk : k < c.asked := by
      have := (List.getElem?_eq_some_iff.1 ha).1
      rwa [RecordFeed.length_answers] at this
    rw [h.tallies.answers i f c hf hc] at ha
    by_cases hlt : k < (recordsOf i handed).length
    · rw [List.getElem?_append_left (by simpa using hlt), List.getElem?_map,
        List.getElem?_eq_getElem hlt] at ha
      rw [← Option.some.inj ha] at hnone
      simp [recordOf] at hnone
    · omega

/-- **How often a merger asks its feeds** in one call or more, whatever they answer and however records
compare. The calls answer with the heads that are handed out.

* If a feed fails at first, the first such feed and those before it have been asked once and the others
  never, and nothing is handed out. Else every feed has been asked once more than it has records among
  those handed out, except the one of the record that the latest call handed out.
* The records that a feed has given are those of its heads that were handed out, in their order, and behind
  them at most one, which waits as its only head. All its answers but the last were records, and it is in
  the state after them.
* After a call that hands nothing out nothing changes any more, so no feed is asked. -/
theorem asked_after (feeds : List φ) (n : Nat) :
    let start := counting order feeds
    let handed := start.handedOut (n + 1)
    let m := RecordFeed.after start (n + 1)
    (RecordFeed.answers start (n + 1)).map recordOf =
        ((List.range (n + 1)).map fun k => (start.handedAt k).map (·.record)) ∧
      m.feeds.length = feeds.length ∧
      (match feeds.findIdx? failsFirst with
        | some s => (∃ e, start.next.1 = .error e) ∧ handed = [] ∧
            ∀ i c, m.feeds[i]? = some c → c.asked = if i ≤ s then 1 else 0
        | none => ∀ i c, m.feeds[i]? = some c → c.asked = (recordsOf i handed).length +
            if (start.handedAt n).map (·.feed) = some i then 0 else 1) ∧
      (∀ i f c, feeds[i]? = some f → m.feeds[i]? = some c →
        c.feed = RecordFeed.after f c.asked ∧
          (RecordFeed.answers f c.asked).filterMap recordOf =
            recordsOf i handed ++ recordsOf i m.heads.toList ∧
          (recordsOf i m.heads.toList).length ≤ 1 ∧
          ∀ k a, (RecordFeed.answers f c.asked)[k]? = some a → recordOf a = none → k + 1 = c.asked) ∧
      (∀ i, feeds.length ≤ i → recordsOf i handed = [] ∧ recordsOf i m.heads.toList = []) ∧
      ∀ k ≤ n, start.handedAt k = none → m = RecordFeed.after start (k + 1) := by
  intro start handed m
  obtain ⟨due, hkeeps⟩ : ∃ due, m.Keeps feeds handed due := exists_keeps_after order feeds n
  refine ⟨map_recordOf_answers start (n + 1), hkeeps.tallies.length_eq, ?_, ?_, ?_, ?_⟩
  · cases hidx : feeds.findIdx? failsFirst with
    | none =>
      intro i c hc
      exact (stands_after order hidx n).asked_eq hc
    | some s =>
      obtain ⟨herror, hnone, hfirst⟩ := keeps_after order hidx n
      refine ⟨herror, hnone, ?_⟩
      intro i c hc
      exact hfirst.asked_eq_first hc
  · intro i f c hf hc
    exact ⟨hkeeps.tallies.state i f c hf hc, hkeeps.records hf hc⟩
  · intro i hi
    obtain ⟨hhanded, hdue⟩ := hkeeps.tallies.beyond i hi
    rw [(hkeeps.each i).recordsOf_heads, hdue]
    exact ⟨hhanded, rfl⟩
  · intro k hk hnone
    exact after_of_handedAt_eq_none hk hnone

/-- After two records the feed of the first one has been asked again, and the feed of the second one has
not. -/
example :
    let feeds := [Replay.ofRecords [[97], [100], [103]], .ofRecords [[98], [101]], .ofRecords [[99]]]
    (RecordFeed.after (counting Record.byteOrder feeds) 2).feeds.map (·.asked) = [2, 1, 1] := by
  cbv

end Runs

end Merger

end RecordSort
