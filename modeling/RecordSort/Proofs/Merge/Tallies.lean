import Mathlib.Logic.Function.Basic
import RecordSort.Proofs.Merge.HeapOrder
import RecordSort.Merge.Merger

/-! # What the feeds of a merge were asked

The feeds of a merge count how often they are asked. What a feed has answered so far are the records that
were handed out, in order, and behind them at most one answer that is *due*: a record that waits among the
heads, the news that there is none, or an error. Asking a feed of which nothing is due makes its answer
due, and handing out a head takes the answer off that was due from its feed.

* **`Head.recordsOf`** — the records of one feed among heads.
* **`Tallies`** — what the feeds have answered, next to what was handed out and what is due.
* **`Merger.KeepsDue`** — the merger keeps what is due from one feed, and **`Merger.Keeps`** what is due
  from all of them.
* **`Keeps.ask`**, **`Keeps.handOut`** — the two things that happen to a merger. -/

namespace RecordSort

/-- The records of feed `i` **among heads**, in order. -/
def Head.recordsOf (i : Nat) (heads : List Head) : List Record :=
  (heads.filter (·.feed = i)).map (·.record)

section RecordsOf

open Head (recordsOf)

variable {i : Nat} {heads heads' : List Head}

/-- No head, no record. -/
@[simp] theorem recordsOf_nil : recordsOf i [] = [] := rfl

/-- The record of a head counts for its feed. -/
theorem recordsOf_cons_self (head : Head) (heads : List Head) :
    recordsOf head.feed (head :: heads) = head.record :: recordsOf head.feed heads := by
  simp [recordsOf]

/-- The record of a head counts for no other feed. -/
theorem recordsOf_cons_of_ne {head : Head} (h : head.feed ≠ i) :
    recordsOf i (head :: heads) = recordsOf i heads := by
  simp [recordsOf, h]

/-- The records of two rows of heads are counted one after the other. -/
@[simp] theorem recordsOf_append :
    recordsOf i (heads ++ heads') = recordsOf i heads ++ recordsOf i heads' := by
  simp [recordsOf]

/-- The order of the heads changes the order of the records only. -/
theorem perm_recordsOf (h : heads.Perm heads') : (recordsOf i heads).Perm (recordsOf i heads') :=
  (h.filter _).map _

end RecordsOf

open Head (recordsOf)

variable {φ : Type} [RecordFeed φ] {feeds : List φ} {counted : List (Counted φ)}
  {handed : List Head} {due : Nat → List RecordAnswer} {i : Nat}

/-! ## Feeds -/

/-- **What feeds have answered**: the records of theirs that were handed out, and then the answers that are
due. Nothing else has become of them than that they were asked. -/
structure Tallies (feeds : List φ) (counted : List (Counted φ)) (handed : List Head)
    (due : Nat → List RecordAnswer) : Prop where
  length_eq : counted.length = feeds.length
  state : ∀ (i : Nat) (f : φ) (c : Counted φ), feeds[i]? = some f → counted[i]? = some c →
    c.feed = RecordFeed.after f c.asked
  answers : ∀ (i : Nat) (f : φ) (c : Counted φ), feeds[i]? = some f → counted[i]? = some c →
    RecordFeed.answers f c.asked = (recordsOf i handed).map (fun r => .ok (some r)) ++ due i
  /-- Nothing came and nothing is due from feeds that are not there. -/
  beyond : ∀ i : Nat, feeds.length ≤ i → recordsOf i handed = [] ∧ due i = []

namespace Tallies

/-- Every feed has a counter. -/
theorem getElem?_counted (h : Tallies feeds counted handed due) {f : φ} (hf : feeds[i]? = some f) :
    ∃ c, counted[i]? = some c := by
  have hlt : i < counted.length := h.length_eq ▸ (List.getElem?_eq_some_iff.1 hf).1
  exact ⟨counted[i], List.getElem?_eq_getElem hlt⟩

/-- Every counter has a feed. -/
theorem getElem?_feeds (h : Tallies feeds counted handed due) {c : Counted φ}
    (hc : counted[i]? = some c) : ∃ f, feeds[i]? = some f := by
  have hlt : i < feeds.length := h.length_eq ▸ (List.getElem?_eq_some_iff.1 hc).1
  exact ⟨feeds[i], List.getElem?_eq_getElem hlt⟩

/-- How often a feed was asked. -/
theorem asked_eq (h : Tallies feeds counted handed due) {c : Counted φ} (hc : counted[i]? = some c) :
    c.asked = (recordsOf i handed).length + (due i).length := by
  obtain ⟨f, hf⟩ := h.getElem?_feeds hc
  have hlength := congrArg List.length (h.answers i f c hf hc)
  simpa using hlength

/-- **A feed that is asked** has one more answer due. -/
theorem ask (h : Tallies feeds counted handed due) {c : Counted φ} (hc : counted[i]? = some c) :
    Tallies feeds (counted.set i (RecordFeed.next c).2) handed
      (Function.update due i (due i ++ [(RecordFeed.next c).1])) := by
  have hlt : i < counted.length := (List.getElem?_eq_some_iff.1 hc).1
  have hnext : RecordFeed.next c =
      ((RecordFeed.next c.feed).1, ⟨(RecordFeed.next c.feed).2, c.asked + 1⟩) := rfl
  refine ⟨(List.length_set ..).trans h.length_eq, ?_, ?_, ?_⟩
  · intro j f c' hf hc'
    by_cases hj : i = j
    · subst hj
      rw [List.getElem?_set_self hlt, Option.some.injEq] at hc'
      rw [← hc', hnext, RecordFeed.after_add, ← h.state i f c hf hc]
      rfl
    · rw [List.getElem?_set_ne hj] at hc'
      exact h.state j f c' hf hc'
  · intro j f c' hf hc'
    by_cases hj : i = j
    · subst hj
      rw [List.getElem?_set_self hlt, Option.some.injEq] at hc'
      rw [← hc', hnext, RecordFeed.answers_add, h.answers i f c hf hc, ← h.state i f c hf hc,
        Function.update_self, List.append_assoc]
      rfl
    · rw [List.getElem?_set_ne hj] at hc'
      rw [Function.update_of_ne (Ne.symm hj)]
      exact h.answers j f c' hf hc'
  · intro j hj
    rw [Function.update_of_ne (by have := h.length_eq; omega)]
    exact h.beyond j hj

/-- **A head that is handed out** was due from its feed. -/
theorem handOut (h : Tallies feeds counted handed due) {top : Head}
    (hdue : due top.feed = [.ok (some top.record)]) :
    Tallies feeds counted (handed ++ [top]) (Function.update due top.feed []) := by
  refine ⟨h.length_eq, h.state, ?_, ?_⟩
  · intro j f c hf hc
    rw [h.answers j f c hf hc, recordsOf_append]
    by_cases hj : j = top.feed
    · subst hj
      rw [hdue, Function.update_self, recordsOf_cons_self]
      simp
    · rw [Function.update_of_ne hj, recordsOf_cons_of_ne (Ne.symm hj)]
      simp
  · intro j hj
    obtain ⟨hhanded, hnone⟩ := h.beyond j hj
    have hjt : j ≠ top.feed := by
      rintro rfl
      simp [hdue] at hnone
    rw [Function.update_of_ne hjt, recordsOf_append, recordsOf_cons_of_ne (Ne.symm hjt), hhanded]
    exact ⟨rfl, hnone⟩

end Tallies

/-! ## Mergers -/

namespace Merger

section Due

variable {ψ : Type} {m : Merger ψ} {j : Nat} {expected : List RecordAnswer} {answer : RecordAnswer}
  {f : ψ}

/-- The merger **keeps what is due from feed `i`**, which is at most one answer: a record waits among the
heads, where there is no other one of this feed, and the news that there is none is noted. -/
structure KeepsDue (m : Merger ψ) (i : Nat) (expected : List RecordAnswer) : Prop where
  single : expected.length ≤ 1
  held : (recordsOf i m.heads.toList).Perm (expected.filterMap recordOf)
  noted : m.exhausted[i]? = some true ↔ expected = [.ok none]

/-- Nothing or one answer is due from a feed. -/
theorem KeepsDue.eq_nil_or_singleton (h : m.KeepsDue i expected) :
    expected = [] ∨ ∃ answer, expected = [answer] := by
  have hsingle := h.single
  rcases expected with _ | ⟨answer, _ | ⟨other, rest⟩⟩
  · exact Or.inl rfl
  · exact Or.inr ⟨answer, rfl⟩
  · simp at hsingle

/-- A feed has a head exactly if its record is due. -/
theorem KeepsDue.recordsOf_heads (h : m.KeepsDue i expected) :
    recordsOf i m.heads.toList = expected.filterMap recordOf := by
  obtain rfl | ⟨e | _ | r, rfl⟩ := h.eq_nil_or_singleton
  · exact h.held.eq_nil
  · exact h.held.eq_nil
  · exact h.held.eq_nil
  · exact List.perm_singleton.1 h.held

/-- The merger keeps an answer it takes in. -/
theorem KeepsDue.receive (h : m.KeepsDue i []) (hi : i < m.exhausted.length) :
    (m.receive i (answer, f)).2.KeepsDue i [answer] := by
  have hheld : recordsOf i m.heads.toList = [] := h.held.eq_nil
  have hnoted : ¬ m.exhausted[i]? = some true := by simp [h.noted]
  refine ⟨Nat.le_refl 1, ?_, ?_⟩
  · rcases answer with e | _ | r
    · exact h.held
    · exact h.held
    -- the record is the only head of its feed
    · have hpush : (m.heads.push (Head.order m.order) ⟨r, i⟩).toList.Perm (⟨r, i⟩ :: m.heads.toList) :=
        m.heads.perm_push ⟨r, i⟩
      have hrecords := perm_recordsOf (i := i) hpush
      rw [recordsOf_cons_self ⟨r, i⟩, hheld] at hrecords
      exact hrecords
  · rcases answer with e | _ | r
    · simpa [Merger.receive] using hnoted
    · simp [Merger.receive, hi]
    · simpa [Merger.receive] using hnoted

/-- An answer of another feed makes no difference. -/
theorem KeepsDue.receive_of_ne (h : m.KeepsDue j expected) (hj : i ≠ j) :
    (m.receive i (answer, f)).2.KeepsDue j expected := by
  rcases answer with e | _ | r
  · exact ⟨h.single, h.held, h.noted⟩
  · refine ⟨h.single, h.held, ?_⟩
    simp only [Merger.receive, List.getElem?_set_ne hj]
    exact h.noted
  · refine ⟨h.single, ?_, h.noted⟩
    have hpush : (m.heads.push (Head.order m.order) ⟨r, i⟩).toList.Perm (⟨r, i⟩ :: m.heads.toList) :=
      m.heads.perm_push ⟨r, i⟩
    have hrecords := perm_recordsOf (i := j) hpush
    rw [recordsOf_cons_of_ne hj] at hrecords
    exact hrecords.trans h.held

/-- **The head on top** is all that was due from its feed. -/
theorem KeepsDue.eq_of_pop {top : Head} {heads : MinHeap Head} (h : m.KeepsDue top.feed expected)
    (hpop : m.heads.pop (Head.order m.order) = some (top, heads)) :
    expected = [.ok (some top.record)] ∧ recordsOf top.feed heads.toList = [] := by
  have hheld := (perm_recordsOf (MinHeap.perm_pop hpop)).symm.trans h.held
  rw [recordsOf_cons_self] at hheld
  obtain rfl | ⟨e | _ | r, rfl⟩ := h.eq_nil_or_singleton
  · exact absurd hheld.eq_nil (List.cons_ne_nil _ _)
  · exact absurd hheld.eq_nil (List.cons_ne_nil _ _)
  · exact absurd hheld.eq_nil (List.cons_ne_nil _ _)
  · obtain ⟨hrecord, hrest⟩ := List.cons.inj (List.perm_singleton.1 hheld)
    exact ⟨by rw [hrecord], hrest⟩

/-- Nothing is due any more from the feed whose head is handed out. -/
theorem KeepsDue.handOut {top : Head} {heads : MinHeap Head} (h : m.KeepsDue top.feed expected)
    (hpop : m.heads.pop (Head.order m.order) = some (top, heads)) :
    m.handOut.2.KeepsDue top.feed [] := by
  obtain ⟨hdue, hheads⟩ := h.eq_of_pop hpop
  have hnoted := h.noted
  rw [handOut_of_some hpop]
  refine ⟨Nat.zero_le 1, ?_, ?_⟩
  · exact List.Perm.of_eq hheads
  · simpa [hdue] using hnoted

/-- A head of another feed makes no difference. -/
theorem KeepsDue.handOut_of_ne {top : Head} {heads : MinHeap Head} (h : m.KeepsDue j expected)
    (hpop : m.heads.pop (Head.order m.order) = some (top, heads)) (hj : top.feed ≠ j) :
    m.handOut.2.KeepsDue j expected := by
  have hheld := perm_recordsOf (i := j) (MinHeap.perm_pop hpop)
  rw [recordsOf_cons_of_ne hj] at hheld
  rw [handOut_of_some hpop]
  exact ⟨h.single, hheld.symm.trans h.held, h.noted⟩

end Due

/-- The merger **keeps what is due** from each of its feeds. -/
structure Keeps (m : Merger (Counted φ)) (feeds : List φ) (handed : List Head)
    (due : Nat → List RecordAnswer) : Prop where
  tallies : Tallies feeds m.feeds handed due
  length_eq : m.exhausted.length = feeds.length
  each : ∀ i, m.KeepsDue i (due i)

variable {m m' : Merger (Counted φ)}

/-- What a merger keeps depends on its feeds, its heads and what it has noted. -/
theorem Keeps.congr (h : m.Keeps feeds handed due) (hfeeds : m'.feeds = m.feeds)
    (hexhausted : m'.exhausted = m.exhausted) (hheads : m'.heads = m.heads) :
    m'.Keeps feeds handed due where
  tallies := hfeeds ▸ h.tallies
  length_eq := hexhausted ▸ h.length_eq
  each i := ⟨(h.each i).single, hheads ▸ (h.each i).held, hexhausted ▸ (h.each i).noted⟩

/-- **Asking a feed** of which nothing is due passes its error on, if it has one, and makes its answer
due. -/
theorem Keeps.ask (h : m.Keeps feeds handed due) {f : φ} (hf : feeds[i]? = some f)
    (hdue : due i = []) :
    let answer := (RecordFeed.next (RecordFeed.after f (recordsOf i handed).length)).1
    (m.ask i).1 = answer.map (fun _ => ()) ∧
      (m.ask i).2.Keeps feeds handed (Function.update due i [answer]) := by
  intro answer
  obtain ⟨c, hc⟩ := h.tallies.getElem?_counted hf
  have hasked : c.asked = (recordsOf i handed).length := by
    have := h.tallies.asked_eq hc
    simpa [hdue] using this
  have hanswer : (RecordFeed.next c).1 = answer := by
    show (RecordFeed.next c.feed).1 = _
    rw [h.tallies.state i f c hf hc, hasked]
  have hi : i < m.exhausted.length := by
    rw [h.length_eq]
    exact (List.getElem?_eq_some_iff.1 hf).1
  have hkeeps : m.KeepsDue i [] := hdue ▸ h.each i
  have hask : m.ask i = m.receive i (answer, (RecordFeed.next c).2) := by
    rw [← hanswer, Merger.ask, if_neg (by simp [hkeeps.noted]), hc]
  have htallies := h.tallies.ask hc
  rw [hdue, List.nil_append, hanswer] at htallies
  rw [hask]
  refine ⟨?_, ?_, ?_, ?_⟩
  · rcases answer with e | _ | r <;> rfl
  · rcases answer with e | _ | r <;> exact htallies
  · rcases answer with e | _ | r
    · exact h.length_eq
    · exact (List.length_set ..).trans h.length_eq
    · exact h.length_eq
  · apply (Function.forall_update_iff due fun j expected => KeepsDue _ j expected).2
    constructor
    · exact hkeeps.receive hi
    · intro j hj
      exact (h.each j).receive_of_ne (Ne.symm hj)

/-- **Handing out**: either there is no head, or the head on top was due from its feed, which now owes
nothing. -/
theorem Keeps.handOut (h : m.Keeps feeds handed due) :
    m.handOut = (.ok none, m) ∨
      ∃ top heads, m.handOut =
          (.ok (some top.record), { m with heads := heads, pending := some top.feed }) ∧
        due top.feed = [.ok (some top.record)] ∧
        m.handOut.2.Keeps feeds (handed ++ [top]) (Function.update due top.feed []) := by
  cases hpop : m.heads.pop (Head.order m.order) with
  | none => exact Or.inl (handOut_of_none hpop)
  | some out =>
    obtain ⟨top, heads⟩ := out
    obtain ⟨hdue, -⟩ := (h.each top.feed).eq_of_pop hpop
    refine Or.inr ⟨top, heads, handOut_of_some hpop, hdue, ?_, ?_, ?_⟩
    · rw [handOut_of_some hpop]
      exact h.tallies.handOut hdue
    · rw [handOut_of_some hpop]
      exact h.length_eq
    · apply (Function.forall_update_iff due fun j expected => KeepsDue _ j expected).2
      constructor
      · exact (h.each top.feed).handOut hpop
      · intro j hj
        exact (h.each j).handOut_of_ne hpop (Ne.symm hj)

end Merger

end RecordSort
