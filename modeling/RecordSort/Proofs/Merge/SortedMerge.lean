import RecordSort.Proofs.Merge.Scanning
import RecordSort.Proofs.Record.StableSort

/-! # Merging feeds in order

If no feed fails and the records of each feed are in order, a merger hands out the stable sort of all
records, taken feed by feed. The proof follows the merger by scanning: at every moment each lane has
some records *left*, and the record that is handed out is the first of the least of all that are left.

* **`Lane.left`** — the records of a lane that are still to be handed out.
* **`ScanMerger.Reads`** — a merger that has not failed and has certain records left in its lanes.
* **`Reads.askDue`**, **`Reads.handOut`** — asking moves no record out of its lane, and handing out takes
  the first record of one lane.
* **`sortRecords_flatten_set`** — why that record leads the stable sort.
* **`Merger.drain_ofFeeds`** — the records and the outcome of a whole merge. -/

namespace RecordSort

/-! ## The record that leads the stable sort -/

/-- **The first record of one list leads the stable sort of all of them**, if it comes before the records
of the lists in front and not after any other one. -/
theorem sortRecords_flatten_set {cmp : Record → Record → Ordering} [Std.TransCmp cmp]
    {lists : List (List Record)} {i : Nat} {r : Record} {rest : List Record}
    (hi : lists[i]? = some (r :: rest)) (hrest : ∀ a ∈ rest, (cmp r a).isLE)
    (hfront : ∀ j l, j < i → lists[j]? = some l → ∀ a ∈ l, cmp r a = .lt)
    (hback : ∀ j l, i < j → lists[j]? = some l → ∀ a ∈ l, (cmp r a).isLE) :
    sortRecords cmp lists.flatten = r :: sortRecords cmp (lists.set i rest).flatten := by
  obtain ⟨hlt, hget⟩ := List.getElem?_eq_some_iff.1 hi
  have hsplit : lists = lists.take i ++ (r :: rest) :: lists.drop (i + 1) := by
    rw [← hget, List.getElem_cons_drop, List.take_append_drop]
  have hset : lists.set i rest = lists.take i ++ rest :: lists.drop (i + 1) := by
    rw [List.set_eq_take_append_cons_drop, if_pos hlt]
  have hmin := @sortRecords_min cmp _ r (lists.take i).flatten
    (rest ++ (lists.drop (i + 1)).flatten) ?_ ?_
  · rw [hset, List.flatten_append, List.flatten_cons]
    rw [← hmin]
    conv => lhs; rw [hsplit]
    rw [List.flatten_append, List.flatten_cons, List.cons_append]
  · intro a ha
    obtain ⟨l, hl, hal⟩ := List.mem_flatten.1 ha
    obtain ⟨j, hj⟩ := List.mem_iff_getElem?.1 hl
    rw [List.getElem?_take] at hj
    split at hj
    · exact hfront j l (by assumption) hj a hal
    · simp at hj
  · intro a ha
    rcases List.mem_append.1 ha with ha | ha
    · exact hrest a ha
    · obtain ⟨l, hl, hal⟩ := List.mem_flatten.1 ha
      obtain ⟨j, hj⟩ := List.mem_iff_getElem?.1 hl
      rw [List.getElem?_drop] at hj
      exact hback (i + 1 + j) l (by omega) hj a hal

/-! ## The records left in a lane -/

namespace Lane

variable {φ : Type} [RecordFeed φ] [FiniteFeed φ]

/-- The records of a lane that are **still to be handed out**: the one held ready, and those of the feed
unless it has run out. -/
def left (lane : Lane φ) : List Record :=
  lane.head.toList ++ if lane.exhausted then [] else (drain lane.feed).records

/-- The feed of the lane will not fail. -/
def Sound (lane : Lane φ) : Prop :=
  lane.exhausted = true ∨ (drain lane.feed).outcome = .ok ()

/-- The lane **shows** its next record, if it has any left. -/
def Shows (lane : Lane φ) : Prop :=
  lane.head = none → lane.left = []

/-- The head of a lane is the first of what is left of it. -/
theorem left_of_head {lane : Lane φ} {r : Record} (h : lane.head = some r) :
    lane.left = r :: ({ lane with head := none } : Lane φ).left := by
  simp [left, h]

end Lane

namespace ScanMerger

variable {φ : Type} [RecordFeed φ] [FiniteFeed φ]

/-- **Asking a lane** that holds no record and will not fail: no record is lost, and the next one shows. -/
theorem askLane_of_sound {lane : Lane φ} (hsound : lane.Sound) (hvacant : lane.head = none) :
    (askLane lane).1 = .ok () ∧ (askLane lane).2.left = lane.left ∧ (askLane lane).2.Sound ∧
      (askLane lane).2.Shows := by
  unfold askLane
  by_cases hex : lane.exhausted = true
  · rw [if_pos hex]
    exact ⟨rfl, rfl, hsound, fun _ => by simp [Lane.left, hvacant, hex]⟩
  rw [if_neg hex]
  have hok := hsound.resolve_left hex
  rcases hn : RecordFeed.next lane.feed with ⟨e | _ | r, f⟩
  · rw [drain_of_error hn] at hok
    simp at hok
  · refine ⟨rfl, ?_, Or.inl rfl, fun _ => ?_⟩
    · simp [Lane.left, hvacant, hex, drain_of_none hn]
    · simp [Lane.left, hvacant]
  · rw [drain_of_record hn] at hok
    refine ⟨rfl, ?_, Or.inr hok, fun h => by simp at h⟩
    simp [Lane.left, hvacant, hex, drain_of_record hn]

/-- Asking every lane. -/
theorem askEvery_of_sound {lanes : List (Lane φ)} (hsound : ∀ lane ∈ lanes, lane.Sound)
    (hvacant : ∀ lane ∈ lanes, lane.head = none) :
    (askEvery lanes).1 = .ok () ∧ (askEvery lanes).2.map Lane.left = lanes.map Lane.left ∧
      ∀ lane ∈ (askEvery lanes).2, lane.Sound ∧ lane.Shows := by
  induction lanes with
  | nil => exact ⟨rfl, rfl, fun lane h => by simp [askEvery] at h⟩
  | cons lane rest ih =>
    obtain ⟨hok, hleft, hsound', hshows⟩ := askLane_of_sound (hsound lane List.mem_cons_self)
      (hvacant lane List.mem_cons_self)
    obtain ⟨hoks, hlefts, hall⟩ := ih (fun l hl => hsound l (List.mem_cons_of_mem _ hl))
      fun l hl => hvacant l (List.mem_cons_of_mem _ hl)
    rw [askEvery]
    rcases ha : askLane lane with ⟨e | _, lane'⟩ <;> rw [ha] at hok hleft hsound' hshows
    · simp at hok
    · refine ⟨hoks, ?_, fun l hl => ?_⟩
      · rw [List.map_cons, List.map_cons, hlefts, ← hleft]
      · rcases List.mem_cons.1 hl with rfl | hl
        · exact ⟨hsound', hshows⟩
        · exact hall l hl

/-! ## The records left in a merger -/

/-- A merger that **has the records `lists` left** in its lanes, in order lane by lane, and will not
fail. -/
structure Reads (order : Record → Record → Ordering) (s : ScanMerger φ)
    (lists : List (List Record)) : Prop where
  order_eq : s.order = order
  left : s.lanes.map Lane.left = lists
  sorted : ∀ l ∈ lists, IsSorted order l
  sound : ∀ lane ∈ s.lanes, lane.Sound
  running : s.failed = false
  /-- Before the start no lane holds a record. -/
  fresh : s.started = false → ∀ lane ∈ s.lanes, lane.head = none
  /-- After the start all lanes but the one that is to be asked show their next records. -/
  shows : s.started = true → ∀ i lane, s.lanes[i]? = some lane → s.last ≠ some i → lane.Shows
  /-- The lane that is to be asked holds no record. -/
  vacant : ∀ i lane, s.last = some i → s.lanes[i]? = some lane → lane.head = none

variable {order : Record → Record → Ordering} {s : ScanMerger φ} {lists : List (List Record)}

/-- Before anything was asked for, all records of the feeds are left. -/
theorem reads_ofFeeds {feeds : List φ} (h : ∀ f ∈ feeds, (drain f).outcome = .ok ())
    (hsorted : ∀ f ∈ feeds, IsSorted order (drain f).records) :
    (ofFeeds order feeds).Reads order (feeds.map fun f => (drain f).records) where
  order_eq := rfl
  left := by simp [ofFeeds, Lane.left, Function.comp_def]
  sorted l hl := by
    obtain ⟨f, hf, rfl⟩ := List.mem_map.1 hl
    exact hsorted f hf
  sound lane hl := by
    obtain ⟨f, hf, rfl⟩ := List.mem_map.1 hl
    exact Or.inr (h f hf)
  running := rfl
  fresh _ lane hl := by
    obtain ⟨f, hf, rfl⟩ := List.mem_map.1 hl
    rfl
  shows hs := by simp [ofFeeds] at hs
  vacant i lane hi := by simp [ofFeeds] at hi

/-- **Asking the feeds that are to be asked** succeeds and moves no record out of its lane; then all lanes
show their next records. -/
theorem Reads.askDue (h : s.Reads order lists) :
    s.askDue.1 = .ok () ∧ s.askDue.2.map Lane.left = lists ∧
      ∀ lane ∈ s.askDue.2, lane.Sound ∧ lane.Shows := by
  unfold ScanMerger.askDue
  split
  · rename_i hstarted
    split
    -- no feed is to be asked
    · rename_i hlast
      refine ⟨rfl, h.left, fun lane hl => ⟨h.sound lane hl, ?_⟩⟩
      obtain ⟨i, hi⟩ := List.mem_iff_getElem?.1 hl
      exact h.shows hstarted i lane hi (by simp [hlast])
    -- only the lane of the record handed out last is asked
    · rename_i i hlast
      have hother : ∀ j lane, s.lanes[j]? = some lane → j ≠ i → lane.Sound ∧ lane.Shows := by
        intro j lane hj hne
        refine ⟨h.sound lane (List.mem_iff_getElem?.2 ⟨j, hj⟩), h.shows hstarted j lane hj ?_⟩
        rw [hlast]
        exact fun heq => hne (Option.some.inj heq).symm
      unfold askOne
      split
      · rename_i hnone
        refine ⟨rfl, h.left, fun lane hl => ?_⟩
        obtain ⟨j, hj⟩ := List.mem_iff_getElem?.1 hl
        exact hother j lane hj (by rintro rfl; simp [hnone] at hj)
      · rename_i lane hget
        obtain ⟨hok, hleft, hsound, hshows⟩ := askLane_of_sound
          (h.sound lane (List.mem_iff_getElem?.2 ⟨i, hget⟩)) (h.vacant i lane hlast hget)
        refine ⟨hok, ?_, fun l hl => ?_⟩
        · rw [map_set_eq_map hget hleft, h.left]
        · obtain ⟨j, hj⟩ := List.mem_iff_getElem?.1 hl
          rw [List.getElem?_set] at hj
          split at hj
          · split at hj
            · obtain rfl := Option.some.inj hj
              exact ⟨hsound, hshows⟩
            · simp at hj
          · exact hother j l hj (by omega)
  · rename_i hstarted
    have hfresh := h.fresh (by simpa using hstarted)
    obtain ⟨hok, hleft, hall⟩ := askEvery_of_sound h.sound hfresh
    exact ⟨hok, hleft.trans h.left, hall⟩

/-- **The head that scanning finds leads the stable sort** of all records that are left, if they are in
order lane by lane. -/
theorem sortRecords_of_least {cmp : Record → Record → Ordering} [Std.TransCmp cmp]
    {lanes : List (Lane φ)} (hshows : ∀ lane ∈ lanes, lane.Shows)
    (hsorted : ∀ lane ∈ lanes, IsSorted cmp lane.left) {r : Record} {i : Nat}
    (h : least cmp 0 lanes = some (r, i)) :
    ∃ lane, lanes[i]? = some lane ∧ lane.head = some r ∧
      sortRecords cmp (lanes.map Lane.left).flatten =
        r :: sortRecords cmp
          ((lanes.set i { lane with head := none }).map Lane.left).flatten := by
  obtain ⟨j, lane, hj, hget, hhead⟩ := mem_readyFrom.1 (mem_of_least h)
  obtain rfl : i = j := by simpa using hj
  refine ⟨lane, hget, hhead, ?_⟩
  -- the head of another lane is not before `r`, and its other records are not before that head
  have hother : ∀ k l, ((lanes.map Lane.left)[k]? = some l) → ∀ a ∈ l,
      ∃ t, (Head.order cmp ⟨r, i⟩ ⟨t, k⟩).isLE ∧ (cmp t a).isLE := by
    intro k l hk a ha
    rw [List.getElem?_map, Option.map_eq_some_iff] at hk
    obtain ⟨other, hother, rfl⟩ := hk
    have hmem : other ∈ lanes := List.mem_iff_getElem?.2 ⟨k, hother⟩
    cases ht : other.head with
    | none => rw [hshows other hmem ht] at ha; simp at ha
    | some t =>
      have hle := isLE_of_least h (a := ⟨t, k⟩) (mem_readyFrom.2 ⟨k, other, by simp, hother, ht⟩)
      have hin := hsorted other hmem
      rw [Lane.left_of_head ht] at ha hin
      refine ⟨t, hle, ?_⟩
      rcases List.mem_cons.1 ha with rfl | ha
      · simp [Std.ReflCmp.compare_self]
      · exact (isSorted_cons.1 hin).1 a ha
  rw [List.map_set]
  refine sortRecords_flatten_set ?_ ?_ ?_ ?_
  · rw [List.getElem?_map, hget, Option.map_some, Lane.left_of_head hhead]
  · have hin := hsorted lane (List.mem_iff_getElem?.2 ⟨i, hget⟩)
    rw [Lane.left_of_head hhead] at hin
    exact (isSorted_cons.1 hin).1
  -- an equal record in front would have been handed out first
  · intro k l hki hk a ha
    obtain ⟨t, hrt, hta⟩ := hother k l hk a ha
    rw [Head.order, Ordering.isLE_then_iff_and] at hrt
    have hgt : compare i k = .gt := Nat.compare_eq_gt.2 hki
    have hlt : cmp r t = .lt := by
      rcases hrt.2 with hlt | hle
      · simpa using hlt
      · simp [hgt] at hle
    exact Std.TransCmp.lt_of_lt_of_isLE hlt hta
  · intro k l _ hk a ha
    obtain ⟨t, hrt, hta⟩ := hother k l hk a ha
    rw [Head.order, Ordering.isLE_then_iff_and] at hrt
    exact Std.TransCmp.isLE_trans hrt.1 hta

/-- **The step of a merge in order**: either nothing is left and there is no record, or the record that
leads the stable sort of all that is left is handed out. -/
theorem Reads.next [Std.TransCmp order] (h : s.Reads order lists) :
    s.next.1 = .ok none ∧ lists.flatten = [] ∨
      ∃ r lists', s.next.1 = .ok (some r) ∧ s.next.2.Reads order lists' ∧
        sortRecords order lists.flatten = r :: sortRecords order lists'.flatten := by
  obtain ⟨hok, hleft, hall⟩ := h.askDue
  have hin : ∀ lane ∈ s.askDue.2, IsSorted order lane.left := fun lane hl =>
    h.sorted _ (hleft ▸ List.mem_map_of_mem hl)
  rw [ScanMerger.next, if_neg (by simp [h.running])]
  rcases ha : s.askDue with ⟨e | _, lanes⟩ <;> rw [ha] at hok hleft hall hin
  · simp at hok
  dsimp only at hleft hall hin ⊢
  cases hleast : least s.order 0 lanes with
  | none =>
    rw [handOut_of_none hleast]
    refine Or.inl ⟨rfl, ?_⟩
    rw [← hleft, List.flatten_eq_nil_iff]
    intro l hl
    obtain ⟨lane, hlane, rfl⟩ := List.mem_map.1 hl
    -- a lane with a record left would show it
    refine (hall lane hlane).2 ?_
    cases hhead : lane.head with
    | none => rfl
    | some t =>
      obtain ⟨k, hk⟩ := List.mem_iff_getElem?.1 hlane
      have hready : (⟨t, k⟩ : Head) ∈ readyFrom 0 lanes :=
        mem_readyFrom.2 ⟨k, lane, by simp, hk, hhead⟩
      rw [least_eq_none_iff.1 hleast] at hready
      simp at hready
  | some best =>
    obtain ⟨r, i⟩ := best
    rw [handOut_of_some hleast]
    dsimp only
    rw [h.order_eq] at hleast
    obtain ⟨lane, hget, hhead, hsort⟩ :=
      sortRecords_of_least (fun lane hl => (hall lane hl).2) hin hleast
    have hmem : lane ∈ lanes := List.mem_iff_getElem?.2 ⟨i, hget⟩
    rw [modify_eq_set_of_getElem? hget]
    refine Or.inr ⟨r, _, rfl, ⟨h.order_eq, rfl, ?_, ?_, h.running, fun hs => by simp at hs, ?_, ?_⟩,
      hleft ▸ hsort⟩
    · intro l hl
      obtain ⟨other, hother, rfl⟩ := List.mem_map.1 hl
      rcases List.mem_or_eq_of_mem_set hother with hother | rfl
      · exact hin other hother
      · have hlane := hin lane hmem
        rw [Lane.left_of_head hhead] at hlane
        exact (isSorted_cons.1 hlane).2
    · intro other hother
      rcases List.mem_or_eq_of_mem_set hother with hother | rfl
      · exact (hall other hother).1
      · exact (hall lane hmem).1
    · intro _ k other hk hne
      rw [List.getElem?_set_ne fun hik => hne (congrArg some hik)] at hk
      exact (hall other (List.mem_iff_getElem?.2 ⟨k, hk⟩)).2
    · intro k other hk hother
      obtain rfl : i = k := Option.some.inj hk
      rw [List.getElem?_set_self (List.getElem?_eq_some_iff.1 hget).1, Option.some.injEq] at hother
      rw [← hother]

end ScanMerger

/-! ## A whole merge -/

namespace Merger

variable {φ : Type} [RecordFeed φ] [FiniteFeed φ] {order : Record → Record → Ordering}
  [Std.TransCmp order]

/-- A merger hands out **what is left, in stable order**. The induction is on the records that are still
to come. -/
theorem drain_of_reads {m : Merger φ} {s : ScanMerger φ} {lists : List (List Record)}
    (hagrees : m.Agrees order s) (h : s.Reads order lists) :
    (drain m).records = sortRecords order lists.flatten ∧ (drain m).outcome = .ok () := by
  generalize hrs : sortRecords order lists.flatten = rs
  induction rs generalizing m s lists with
  | nil =>
    obtain ⟨hanswer, hafter⟩ := hagrees.next
    rcases h.next with ⟨hnone, -⟩ | ⟨r, lists', -, -, hsort⟩
    · have hm : RecordFeed.next m = (.ok none, m.next.2) := Prod.ext (hanswer.trans hnone) rfl
      rw [drain_of_none hm]
      exact ⟨rfl, rfl⟩
    · rw [hrs] at hsort
      simp at hsort
  | cons r₀ rs ih =>
    obtain ⟨hanswer, hafter⟩ := hagrees.next
    rcases h.next with ⟨-, hnil⟩ | ⟨r, lists', hsome, hreads, hsort⟩
    · rw [hnil, sortRecords_nil] at hrs
      simp at hrs
    · rw [hrs] at hsort
      obtain ⟨rfl, hrest⟩ := List.cons.inj hsort
      obtain ⟨hrecords, houtcome⟩ := ih hafter hreads hrest.symm
      have hm : RecordFeed.next m = (.ok (some r₀), m.next.2) := Prod.ext (hanswer.trans hsome) rfl
      rw [drain_of_record hm]
      exact ⟨congrArg (r₀ :: ·) hrecords, houtcome⟩

/-- **Merging feeds in order** that do not fail gives the stable sort of all their records. -/
theorem drain_ofFeeds {feeds : List φ} (h : ∀ f ∈ feeds, (drain f).outcome = .ok ())
    (hsorted : ∀ f ∈ feeds, IsSorted order (drain f).records) :
    (drain (ofFeeds order feeds)).records =
        sortRecords order (feeds.flatMap fun f => (drain f).records) ∧
      (drain (ofFeeds order feeds)).outcome = .ok () := by
  rw [List.flatMap_def]
  exact drain_of_reads (agrees_ofFeeds feeds) (ScanMerger.reads_ofFeeds h hsorted)

omit [Std.TransCmp order] in
/-- A merger that does not fail **answers like the feed of the records** that come out of it. -/
theorem answers_of_drain {m : Merger φ} (h : (drain m).outcome = .ok ()) (n : Nat) :
    RecordFeed.answers m n = RecordFeed.answers (Replay.ofRecords (drain m).records) n := by
  induction n generalizing m with
  | zero => rfl
  | succ n ih =>
    show m.next.1 :: RecordFeed.answers m.next.2 n = _
    rcases hn : m.next with ⟨e | _ | r, m'⟩
    · rw [drain_of_error hn] at h
      simp at h
    · have hidle : m'.Idle := by
        have hafter := idle_next (m := m) fun r hr => by simp [hn] at hr
        rwa [hn] at hafter
      rw [drain_of_none hn, hidle.answers, Replay.answers_ofRecords_nil, List.replicate_succ]
    · rw [drain_of_record hn] at h ⊢
      rw [ih h]
      rfl

/-- **Merging feeds in order is the stable sort** of their records, taken feed by feed: the merger hands
out these records and then none, in order, and equal records in the order of the feeds. -/
theorem merge_of_isSorted (cmp : Record → Record → Ordering) [Std.TransCmp cmp] (feeds : List φ)
    (h : ∀ f ∈ feeds, (drain f).outcome = .ok ())
    (hsorted : ∀ f ∈ feeds, IsSorted cmp (drain f).records) :
    let records := feeds.flatMap fun f => (drain f).records
    let merged := (drain (ofFeeds cmp feeds)).records
    (drain (ofFeeds cmp feeds)).outcome = .ok () ∧
      (∀ n, RecordFeed.answers (ofFeeds cmp feeds) n =
        RecordFeed.answers (Replay.ofRecords merged) n) ∧
      merged = sortRecords cmp records ∧ IsSorted cmp merged ∧ merged.Perm records ∧
      ∀ r, equalTo cmp r merged = equalTo cmp r records := by
  intro records merged
  obtain ⟨hmerged, hok⟩ := drain_ofFeeds h hsorted
  refine ⟨hok, answers_of_drain hok, hmerged, ?_, ?_, fun r => ?_⟩
  · show IsSorted cmp (drain (ofFeeds cmp feeds)).records
    rw [hmerged]
    exact isSorted_sortRecords records
  · show (drain (ofFeeds cmp feeds)).records.Perm records
    rw [hmerged]
    exact perm_sortRecords records
  · show equalTo cmp r (drain (ofFeeds cmp feeds)).records = equalTo cmp r records
    rw [hmerged]
    exact equalTo_sortRecords r records

/-- Three feeds, one of them empty: records with the same first byte come by feed. -/
theorem merge_of_isSorted_firstByteOrder :
    (drain (ofFeeds Record.firstByteOrder [Replay.ofRecords [[97, 1], [98, 0]], Replay.ofRecords [],
        Replay.ofRecords [[97, 0], [97, 2], [99]]])).records =
      [[97, 1], [97, 0], [97, 2], [98, 0], [99]] := by
  refine (merge_of_isSorted Record.firstByteOrder _ ?_ ?_).2.2.1.trans ?_
  · simp [drain_ofRecords]
  · simp only [List.mem_cons, List.not_mem_nil, or_false, forall_eq_or_imp, forall_eq,
      drain_ofRecords]
    unfold IsSorted
    decide
  · simp +decide [drain_ofRecords, sortRecords, List.mergeSort]

end Merger

end RecordSort
