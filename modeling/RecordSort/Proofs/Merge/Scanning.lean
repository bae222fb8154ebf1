import RecordSort.Proofs.Merge.HeapOrder
import RecordSort.Proofs.Merge.ReadyHeads

/-! # A merger with a heap scans all heads

The merger that keeps its heads in a heap hands out what the merger by scanning hands out. The two run
side by side: the heap holds the records that the lanes hold ready, and every step keeps that so. The
feeds may answer as they like.

* **`Merger.Holds`** — a merger keeps what lanes keep, with its heads in a heap in order.
* **`Merger.Mirrors`** — two mergers that have not failed are in the same state.
* **`Merger.Agrees`** — they mirror each other, or both have failed; `Agrees.next` says that they then
  give the same answer and agree afterwards.
* **`Merger.Idle`** — a merger that has no more records. -/

namespace RecordSort

/-- Modifying an item puts another one in its place. -/
theorem modify_eq_set_of_getElem? {α : Type} {xs : List α} {i : Nat} {a : α} (h : xs[i]? = some a)
    (f : α → α) : xs.modify i f = xs.set i (f a) := by
  refine List.ext_getElem? fun j => ?_
  rw [List.getElem?_modify, List.getElem?_set]
  by_cases hij : i = j
  · subst hij
    rw [if_pos rfl, if_pos (List.getElem?_eq_some_iff.1 h).1, h]
    simp
  · simp [hij]

namespace Merger

open ScanMerger (readyFrom headOf least)

variable {φ : Type} {order : Record → Record → Ordering}

/-! ## States -/

/-- The merger **keeps what the lanes keep**: their feeds, which of them are exhausted, and the records
held ready, which lie in a heap in order. -/
structure Holds (order : Record → Record → Ordering) (m : Merger φ) (lanes : List (Lane φ)) :
    Prop where
  order_eq : m.order = order
  feeds : m.feeds = lanes.map (·.feed)
  exhausted : m.exhausted = lanes.map (·.exhausted)
  inOrder : MinHeap.IsHeap (Head.order order) m.heads.items
  heads : m.heads.toList.Perm (readyFrom 0 lanes)

/-- **Two mergers in the same state**, neither of which has failed. -/
structure Mirrors (order : Record → Record → Ordering) (m : Merger φ) (s : ScanMerger φ) :
    Prop where
  order_eq : s.order = order
  holds : m.Holds order s.lanes
  started : m.started = s.started
  pending : m.pending = s.last
  running : m.failed = false ∧ s.failed = false
  /-- The lane whose record was handed out last holds none. -/
  vacant : ∀ i, s.last = some i → ∃ lane, s.lanes[i]? = some lane ∧ lane.head = none
  /-- Before the start no lane holds a record. -/
  fresh : s.started = false → s.last = none ∧ ∀ lane ∈ s.lanes, lane.head = none

/-- Two mergers **agree** if they mirror each other or both have failed. -/
def Agrees (order : Record → Record → Ordering) (m : Merger φ) (s : ScanMerger φ) : Prop :=
  m.failed = true ∧ s.failed = true ∨ m.Mirrors order s

/-- Before anything was asked for, the mergers agree. -/
theorem agrees_ofFeeds (feeds : List φ) :
    Agrees order (ofFeeds order feeds) (ScanMerger.ofFeeds order feeds) := by
  have hheads : ∀ lane ∈ feeds.map fun f => ({ feed := f } : Lane φ), lane.head = none := by
    simp
  refine Or.inr ⟨rfl, ⟨rfl, ?_, ?_, MinHeap.isHeap_empty, ?_⟩, rfl, rfl, ⟨rfl, rfl⟩, ?_, ?_⟩
  · simp [ofFeeds, ScanMerger.ofFeeds, Function.comp_def]
  · simp [ofFeeds, ScanMerger.ofFeeds, Function.comp_def, List.map_const']
  · rw [ScanMerger.ofFeeds, ScanMerger.readyFrom_eq_nil hheads]
    exact List.Perm.refl []
  · intro i hi
    simp [ScanMerger.ofFeeds] at hi
  · exact fun _ => ⟨rfl, hheads⟩

/-- A merger is **idle** if it has failed, or if it has no head and no feed is to be asked. -/
def Idle (m : Merger φ) : Prop :=
  m.failed = true ∨ m.started = true ∧ m.pending = none ∧ m.heads.size = 0

/-! ## Handing out -/

/-- **Both hand out the same head**, and mirror each other afterwards. -/
theorem Holds.handOut [Std.TransCmp order] {m : Merger φ} {s : ScanMerger φ}
    (h : m.Holds order s.lanes) (horder : s.order = order) (hpending : m.pending = none)
    (hstarted : m.started = true ∧ s.started = true)
    (hrunning : m.failed = false ∧ s.failed = false) :
    m.handOut.1 = s.handOut.1 ∧ m.handOut.2.Mirrors order s.handOut.2 := by
  cases hpop : m.heads.pop (Head.order m.order) with
  -- the heap is empty, so no lane holds a record
  | none =>
    have hnil : readyFrom 0 s.lanes = [] := by
      have hsize := MinHeap.pop_eq_none_iff.1 hpop
      rw [← MinHeap.length_toList, List.length_eq_zero_iff] at hsize
      exact List.Perm.eq_nil (hsize ▸ h.heads.symm)
    rw [handOut_of_none hpop, ScanMerger.handOut_of_none (ScanMerger.least_eq_none_iff.2 hnil)]
    exact ⟨rfl, horder, h, hstarted.1.trans hstarted.2.symm, hpending, hrunning,
      fun i hi => by simp at hi, fun hs => by simp [hstarted.2] at hs⟩
  | some out =>
    obtain ⟨top, heads⟩ := out
    have hperm := MinHeap.perm_pop hpop
    have htop : top ∈ readyFrom 0 s.lanes :=
      h.heads.mem_iff.1 (hperm.mem_iff.2 List.mem_cons_self)
    cases hleast : least s.order 0 s.lanes with
    | none => rw [ScanMerger.least_eq_none_iff.1 hleast] at htop; simp at htop
    | some best =>
      obtain ⟨r, i⟩ := best
      have hmem := ScanMerger.mem_of_least hleast
      rw [handOut_of_some hpop, ScanMerger.handOut_of_some hleast]
      rw [h.order_eq] at hpop
      rw [horder] at hleast
      -- both heads are least, so they are equal in the order of heads and come from one lane
      have hle : (Head.order order top ⟨r, i⟩).isLE :=
        MinHeap.isLE_of_pop h.inOrder hpop (h.heads.mem_iff.2 hmem)
      have hge : (Head.order order ⟨r, i⟩ top).isLE := ScanMerger.isLE_of_least hleast htop
      obtain rfl : top = ⟨r, i⟩ := ScanMerger.eq_of_mem_readyFrom htop hmem
        (Head.feed_eq_of_order_eq (Std.OrientedCmp.isLE_antisymm hle hge))
      obtain ⟨j, lane, hj, hget, hhead⟩ := ScanMerger.mem_readyFrom.1 hmem
      obtain rfl : i = j := by simpa using hj
      have hlt : i < s.lanes.length := (List.getElem?_eq_some_iff.1 hget).1
      rw [modify_eq_set_of_getElem? hget]
      refine ⟨rfl, horder, ⟨h.order_eq, ?_, ?_, MinHeap.isHeap_pop h.inOrder hpop, ?_⟩,
        hstarted.1.trans hstarted.2.symm, rfl, hrunning, ?_, fun hs => by simp [hstarted.2] at hs⟩
      · have hfeed : (s.lanes.map (·.feed))[i]? = some lane.feed := by simp [hget]
        simp only [List.map_set, set_getElem?_self hfeed, h.feeds]
      · have hexh : (s.lanes.map (·.exhausted))[i]? = some lane.exhausted := by simp [hget]
        simp only [List.map_set, set_getElem?_self hexh, h.exhausted]
      · have hset := @ScanMerger.perm_readyFrom_set _ 0 _ _ _ hget { lane with head := none }
        rw [show headOf (0 + i) lane = some ⟨r, i⟩ by simp [headOf, hhead]] at hset
        exact (hperm.symm.trans (h.heads.trans hset)).cons_inv
      · intro k hk
        obtain rfl : i = k := by simpa using hk
        exact ⟨{ lane with head := none }, by simp [hlt], rfl⟩

/-! ## Asking feeds -/

/-- Two mergers that differ at most in their feeds and heads. -/
structure SameControl (m m' : Merger φ) : Prop where
  pending : m'.pending = m.pending
  started : m'.started = m.started
  failed : m'.failed = m.failed

/-- Mergers that differ at most in these, one after the other. -/
theorem SameControl.trans {m m' m'' : Merger φ} (h : m.SameControl m') (h' : m'.SameControl m'') :
    m.SameControl m'' :=
  ⟨h'.pending.trans h.pending, h'.started.trans h.started, h'.failed.trans h.failed⟩

/-- The lane that stands at an index when another one is put there holds its feed. -/
theorem Holds.set {m : Merger φ} {lanes : List (Lane φ)} {i : Nat} {lane : Lane φ}
    (h : m.Holds order lanes) (hget : lanes[i]? = some lane) (lane' : Lane φ)
    (hhead : lane'.head = lane.head) :
    Holds order
      { m with
        feeds := m.feeds.set i lane'.feed, exhausted := m.exhausted.set i lane'.exhausted }
      (lanes.set i lane') where
  order_eq := h.order_eq
  feeds := by simp only [h.feeds, List.map_set]
  exhausted := by simp only [h.exhausted, List.map_set]
  inOrder := h.inOrder
  heads := by
    have hsame : headOf (0 + i) lane' = headOf (0 + i) lane := by simp [headOf, hhead]
    have hperm := @ScanMerger.perm_readyFrom_set _ 0 _ _ _ hget lane'
    rw [hsame, List.perm_append_left_iff] at hperm
    exact h.heads.trans hperm

section Feeds

variable [RecordFeed φ]

/-- Asking a feed changes nothing but the feeds and the heads. -/
theorem sameControl_ask (m : Merger φ) (i : Nat) : m.SameControl (m.ask i).2 := by
  unfold ask
  split
  · exact ⟨rfl, rfl, rfl⟩
  split
  · exact ⟨rfl, rfl, rfl⟩
  · rename_i f _
    rcases RecordFeed.next f with ⟨e | _ | r, f'⟩ <;> exact ⟨rfl, rfl, rfl⟩

/-- Asking feeds does not change what controls the merger. -/
theorem sameControl_askAll (m : Merger φ) (is : List Nat) : m.SameControl (m.askAll is).2 := by
  induction is generalizing m with
  | nil => exact ⟨rfl, rfl, rfl⟩
  | cons i rest ih =>
    have hask := m.sameControl_ask i
    rw [askAll]
    rcases ha : m.ask i with ⟨e | _, m'⟩ <;> rw [ha] at hask
    · exact hask
    · exact hask.trans (ih m')

variable [Std.TransCmp order]

/-- **Asking a feed asks its lane**, if the lane holds no record. -/
theorem Holds.ask {m : Merger φ} {lanes : List (Lane φ)} {i : Nat} {lane : Lane φ}
    (h : m.Holds order lanes) (hget : lanes[i]? = some lane) (hvacant : lane.head = none) :
    (m.ask i).1 = (ScanMerger.askLane lane).1 ∧
      (m.ask i).2.Holds order (lanes.set i (ScanMerger.askLane lane).2) := by
  have hfeed : m.feeds[i]? = some lane.feed := by rw [h.feeds, List.getElem?_map, hget]; rfl
  have hexh : m.exhausted[i]? = some lane.exhausted := by
    rw [h.exhausted, List.getElem?_map, hget]; rfl
  unfold Merger.ask ScanMerger.askLane
  rw [hexh, hfeed]
  by_cases hex : lane.exhausted = true
  · rw [if_pos (congrArg some hex), if_pos hex, set_getElem?_self hget]
    exact ⟨rfl, h⟩
  rw [if_neg fun heq => hex (Option.some.inj heq), if_neg hex]
  dsimp only
  rcases hn : RecordFeed.next lane.feed with ⟨e | _ | r, f⟩
  -- an error, or no record: only the feed and its mark change
  · have hset := h.set hget { lane with feed := f } rfl
    rw [set_getElem?_self hexh] at hset
    exact ⟨rfl, hset⟩
  · exact ⟨rfl, h.set hget { lane with feed := f, exhausted := true } rfl⟩
  -- a record: it joins the heads
  · have hset := h.set hget { lane with feed := f } rfl
    rw [set_getElem?_self hexh] at hset
    refine ⟨rfl, h.order_eq, ?_, ?_, ?_, ?_⟩
    · simp only [receive, h.feeds, List.map_set]
    · simp only [receive, List.map_set, ← h.exhausted, set_getElem?_self hexh]
    · rw [receive, h.order_eq]
      exact MinHeap.isHeap_push h.inOrder _
    · have hperm := @ScanMerger.perm_readyFrom_set _ 0 _ _ _ hget
        { lane with feed := f, head := some r }
      rw [show headOf (0 + i) lane = none by simp [headOf, hvacant], Nat.zero_add] at hperm
      exact (MinHeap.perm_push m.heads ⟨r, i⟩).trans ((h.heads.cons _).trans hperm)

/-- **Asking feeds one after the other asks every lane**: those in front have been asked, and the others
hold no record. -/
theorem Holds.askAll {m : Merger φ} {front lanes : List (Lane φ)} (h : m.Holds order (front ++ lanes))
    (hvacant : ∀ lane ∈ lanes, lane.head = none) :
    (m.askAll (List.range' front.length lanes.length)).1 = (ScanMerger.askEvery lanes).1 ∧
      (m.askAll (List.range' front.length lanes.length)).2.Holds order
        (front ++ (ScanMerger.askEvery lanes).2) := by
  induction lanes generalizing m front with
  | nil => exact ⟨rfl, h⟩
  | cons lane rest ih =>
    obtain ⟨hanswer, hholds⟩ := h.ask (i := front.length) (by simp) (hvacant lane (by simp))
    rw [List.set_append_right _ _ (Nat.le_refl _), Nat.sub_self, List.set_cons_zero] at hholds
    rw [List.length_cons, List.range'_succ, Merger.askAll, ScanMerger.askEvery]
    rcases ha : m.ask front.length with ⟨e | _, m'⟩ <;> rw [ha] at hanswer hholds <;>
      rcases hl : ScanMerger.askLane lane with ⟨e' | _, lane'⟩ <;> rw [hl] at hanswer hholds <;>
      simp only [reduceCtorEq] at hanswer
    · exact ⟨hanswer, hholds⟩
    · have := @ih m' (front ++ [lane']) (by simpa using hholds)
        fun l hl => hvacant l (List.mem_cons_of_mem _ hl)
      simpa using this

/-! ## Two mergers side by side -/

/-- **Both ask alike**: the feeds that are to be asked give the same answer, and none is pending. -/
theorem Mirrors.askDue {m : Merger φ} {s : ScanMerger φ} (h : m.Mirrors order s) :
    m.askDue.1 = s.askDue.1 ∧ m.askDue.2.Holds order s.askDue.2 ∧
      m.askDue.2.pending = none ∧ m.askDue.2.started = true ∧ m.askDue.2.failed = false := by
  unfold Merger.askDue Merger.start ScanMerger.askDue
  cases hs : s.started with
  -- at the start all feeds are asked, and none is pending
  | false =>
    obtain ⟨hlast, hvacant⟩ := h.fresh hs
    have hpending : m.pending = none := h.pending.trans hlast
    have hholds : Holds order { m with started := true } ([] ++ s.lanes) :=
      ⟨h.holds.order_eq, h.holds.feeds, h.holds.exhausted, h.holds.inOrder, h.holds.heads⟩
    have hlength : m.feeds.length = s.lanes.length := by rw [h.holds.feeds, List.length_map]
    obtain ⟨hanswer, hafter⟩ := hholds.askAll hvacant
    rw [h.started, hs, List.range_eq_range', hlength]
    simp only [Bool.false_eq_true, if_false]
    rw [List.length_nil] at hanswer hafter
    have hcontrol := sameControl_askAll { m with started := true } (List.range' 0 s.lanes.length)
    rw [← hanswer]
    rcases ha : ({ m with started := true } : Merger φ).askAll (List.range' 0 s.lanes.length) with
      ⟨e | _, m'⟩ <;> rw [ha] at hafter hcontrol
    · exact ⟨rfl, hafter, hcontrol.pending.trans hpending, hcontrol.started,
        hcontrol.failed.trans h.running.1⟩
    · have hpending' : m'.pending = none := hcontrol.pending.trans hpending
      dsimp only
      rw [askPending, hpending']
      exact ⟨rfl, hafter, hpending', hcontrol.started, hcontrol.failed.trans h.running.1⟩
  | true =>
    rw [h.started, hs]
    simp only [if_true]
    rw [askPending, h.pending]
    cases hlast : s.last with
    | none =>
      exact ⟨rfl, h.holds, h.pending.trans hlast, h.started.trans hs, h.running.1⟩
    -- later the feed of the record handed out last is asked
    | some i =>
      obtain ⟨lane, hget, hvacant⟩ := h.vacant i hlast
      have hholds : Holds order { m with pending := none } s.lanes :=
        ⟨h.holds.order_eq, h.holds.feeds, h.holds.exhausted, h.holds.inOrder, h.holds.heads⟩
      obtain ⟨hanswer, hafter⟩ := hholds.ask hget hvacant
      have hcontrol := sameControl_ask { m with pending := none } i
      simp only [ScanMerger.askOne, hget]
      exact ⟨hanswer, hafter, hcontrol.pending, hcontrol.started.trans (h.started.trans hs),
        hcontrol.failed.trans h.running.1⟩

/-- **A step of two mergers that agree**: they give the same answer and agree afterwards. -/
theorem Agrees.next {m : Merger φ} {s : ScanMerger φ} (h : m.Agrees order s) :
    m.next.1 = s.next.1 ∧ m.next.2.Agrees order s.next.2 := by
  rcases h with ⟨hm, hs⟩ | h
  · rw [Merger.next, ScanMerger.next, if_pos hm, if_pos hs]
    exact ⟨rfl, Or.inl ⟨hm, hs⟩⟩
  obtain ⟨hanswer, hholds, hpending, hstarted, hfailed⟩ := h.askDue
  rw [Merger.next, ScanMerger.next, if_neg (by simp [h.running.1]), if_neg (by simp [h.running.2])]
  rcases hm : m.askDue with ⟨e | _, m'⟩ <;>
    rw [hm] at hanswer hholds hpending hstarted hfailed <;>
    rcases hs : s.askDue with ⟨e' | _, lanes⟩ <;> rw [hs] at hanswer hholds <;>
    simp only [reduceCtorEq, Except.error.injEq] at hanswer
  · exact ⟨congrArg Except.error hanswer, Or.inl ⟨rfl, rfl⟩⟩
  · have hout := Holds.handOut (s := { s with lanes := lanes, started := true }) hholds h.order_eq
      hpending ⟨hstarted, rfl⟩ ⟨hfailed, h.running.2⟩
    exact ⟨hout.1, Or.inr hout.2⟩

/-- Two mergers that agree give the same answers. -/
theorem Agrees.answers {m : Merger φ} {s : ScanMerger φ} (h : m.Agrees order s) (n : Nat) :
    RecordFeed.answers m n = RecordFeed.answers s n := by
  induction n generalizing m s with
  | zero => rfl
  | succ n ih =>
    obtain ⟨hanswer, hagrees⟩ := h.next
    show m.next.1 :: RecordFeed.answers m.next.2 n = s.next.1 :: RecordFeed.answers s.next.2 n
    rw [hanswer, ih hagrees]

/-! ## After the end -/

/-- An idle merger has no more records and stays as it is. -/
theorem Idle.next {m : Merger φ} (h : m.Idle) : m.next = (.ok none, m) := by
  rw [Merger.next]
  split
  · rfl
  rename_i hfailed
  obtain ⟨hstarted, hpending, hsize⟩ := h.resolve_left hfailed
  rw [askDue, start, if_pos hstarted]
  dsimp only
  rw [askPending, hpending]
  exact handOut_of_none (MinHeap.pop_eq_none_iff.2 hsize)

/-- **An idle merger** answers that there is no record, however often it is asked. -/
theorem Idle.answers {m : Merger φ} (h : m.Idle) (n : Nat) :
    RecordFeed.answers m n = List.replicate n (.ok none) := by
  induction n with
  | zero => rfl
  | succ n ih =>
    show m.next.1 :: RecordFeed.answers m.next.2 n = _
    rw [h.next, ih, List.replicate_succ]

/-- An idle merger stays as it is. -/
theorem Idle.after {m : Merger φ} (h : m.Idle) (n : Nat) : RecordFeed.after m n = m := by
  induction n with
  | zero => rfl
  | succ n ih =>
    show RecordFeed.after m.next.2 n = m
    rw [h.next, ih]

/-- Once the feeds that are to be asked have been asked, the merger has started and none is pending. -/
theorem control_of_askDue {m m' : Merger φ} (h : m.askDue = (.ok (), m')) :
    m'.started = true ∧ m'.pending = none := by
  have hstart : m.start.2.started = true := by
    unfold start
    split
    · assumption
    · exact (sameControl_askAll _ _).started
  have hpending : ∀ m₁ : Merger φ, m₁.askPending.2.started = m₁.started ∧
      m₁.askPending.2.pending = none := by
    intro m₁
    unfold askPending
    split
    · exact ⟨rfl, by assumption⟩
    · exact ⟨(sameControl_ask _ _).started, (sameControl_ask _ _).pending⟩
  unfold askDue at h
  rcases hs : m.start with ⟨e | _, m₁⟩ <;> rw [hs] at h hstart
  · simp at h
  · dsimp only at h
    have := hpending m₁
    rw [h] at this
    exact ⟨this.1.trans hstart, this.2⟩

/-- **After an answer that is no record the merger is idle.** -/
theorem idle_next {m : Merger φ} (h : ∀ r, m.next.1 ≠ .ok (some r)) : m.next.2.Idle := by
  unfold Merger.next at h ⊢
  split
  · exact Or.inl (by assumption)
  rename_i hfailed
  rw [if_neg hfailed] at h
  rcases ha : m.askDue with ⟨e | _, m'⟩
  · exact Or.inl rfl
  · rw [ha] at h
    obtain ⟨hstarted, hpending⟩ := control_of_askDue ha
    dsimp only at h ⊢
    cases hpop : m'.heads.pop (Head.order m'.order) with
    | none =>
      rw [handOut_of_none hpop]
      exact Or.inr ⟨hstarted, hpending, MinHeap.pop_eq_none_iff.1 hpop⟩
    | some out => exact absurd (by rw [handOut_of_some hpop]) (h out.1.record)

/-- After an answer that is no record, all answers are that there is none. -/
theorem getElem?_answers_of_idle {m : Merger φ} {n k l : Nat} (hkl : k < l) (hl : l < n)
    (hk : ∀ r, (RecordFeed.answers m n)[k]? ≠ some (.ok (some r))) :
    (RecordFeed.answers m n)[l]? = some (.ok none) := by
  induction n generalizing m k l with
  | zero => omega
  | succ n ih =>
    obtain ⟨l, rfl⟩ : ∃ l', l = l' + 1 := ⟨l - 1, by omega⟩
    have hcons : RecordFeed.answers m (n + 1) = m.next.1 :: RecordFeed.answers m.next.2 n := rfl
    rw [hcons] at hk ⊢
    rw [List.getElem?_cons_succ]
    cases k with
    | zero =>
      have hidle : m.next.2.Idle := idle_next fun r hr => hk r (by rw [List.getElem?_cons_zero, hr])
      rw [hidle.answers, List.getElem?_replicate, if_pos (by omega)]
    | succ k =>
      have hrest : ∀ r, (RecordFeed.answers m.next.2 n)[k]? ≠ some (.ok (some r)) := by
        simpa using hk
      exact ih (by omega) (by omega) hrest

end Feeds

/-! ## The answers of a merge -/

/-- **A merger with a heap answers like a merger by scanning**, whatever its feeds answer, and after the
first answer that is no record it has no more records. -/
theorem answers_eq_answers_scan [RecordFeed φ] (order : Record → Record → Ordering)
    [Std.TransCmp order] (feeds : List φ) (n : Nat) :
    RecordFeed.answers (ofFeeds order feeds) n =
        RecordFeed.answers (ScanMerger.ofFeeds order feeds) n ∧
      ∀ k l, k < l → l < n →
        (∀ r, (RecordFeed.answers (ofFeeds order feeds) n)[k]? ≠ some (.ok (some r))) →
        (RecordFeed.answers (ofFeeds order feeds) n)[l]? = some (.ok none) :=
  ⟨(agrees_ofFeeds feeds).answers n, fun _ _ hkl hl hk => getElem?_answers_of_idle hkl hl hk⟩

/-- Feeds out of order, of which the second one fails and then goes on: of the equal records `[98, 1]` and
`[98, 0]` that of the first feed is handed out first, and nothing follows the failure. -/
theorem answers_eq_answers_scan_firstByteOrder :
    RecordFeed.answers (ofFeeds Record.firstByteOrder
        [Replay.mk [.ok (some [98, 1]), .ok (some [97]), .ok none, .ok (some [96])],
          Replay.mk [.ok (some [98, 0]), .error .writeZero, .ok (some [99])]]) 5 =
      [.ok (some [98, 1]), .ok (some [97]), .ok (some [98, 0]), .error .writeZero, .ok none] :=
  (answers_eq_answers_scan Record.firstByteOrder _ 5).1.trans rfl

end Merger

end RecordSort
