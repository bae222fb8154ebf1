import Mathlib.Algebra.Group.Nat.Defs
import RecordSort.Merge.HeapCalls
import RecordSort.Proofs.Merge.HeapOrder

/-! # A min-heap is a priority queue

However a heap was made by calls on an empty one, it is in order, and so the item that it hands out is
least. An item rises or sinks one level in a round, and the levels are as many as the halvings of the
number of items; so every call ends after that many rounds, and no access lies outside of the array.

* **`siftUpWithin_eq_some`**, **`siftDownWithin_eq_some`** — an item comes to rest in time.
* **`pushWithin_eq_some`**, **`popWithin_eq_some`** — the checked operations are the plain ones.
* **`isHeap_afterCalls`** — calls keep the order.
* **`pairwise_popAll`**, **`perm_popAll`** — the items come out in order, and all of them do.
* **`leastFirst_afterCalls`** — the heap after any calls. -/

namespace RecordSort

universe u

namespace MinHeap

variable {α : Type u} {cmp : α → α → Ordering}

/-! ## Checked steps succeed -/

/-- A rising item **comes to rest in time**: every round halves the number of its place. -/
theorem siftUpWithin_eq_some {rounds : Nat} {items : Array α} {i : Nat} (hi : i < items.size)
    (h : i + 1 < 2 ^ rounds) : siftUpWithin cmp rounds items i = some (siftUp cmp items i hi) := by
  induction rounds generalizing items i with
  | zero => simp at h
  | succ rounds ih =>
    rw [siftUpWithin, siftUp]
    by_cases h0 : 0 < i
    · have hp : parent i < items.size := Nat.lt_trans (parent_lt h0) hi
      have hnext : parent i + 1 < 2 ^ rounds := by
        rw [Nat.pow_succ] at h
        unfold parent
        omega
      have hswap : items.swapIfInBounds i (parent i) = items.swap i (parent i) := by
        rw [Array.swapIfInBounds, dif_pos hi, dif_pos hp]
      rw [if_pos h0, dif_pos h0, Array.getElem?_eq_getElem hi, Array.getElem?_eq_getElem hp]
      dsimp only
      by_cases hlt : cmp items[i] items[parent i] = .lt
      · rw [if_pos hlt, if_pos hlt, hswap]
        exact ih (by simpa using hp) hnext
      · rw [if_neg hlt, if_neg hlt]
    · rw [if_neg h0, dif_neg h0]

/-- The children of an item that has some are found. -/
theorem leastChild?_eq_some {items : Array α} {i : Nat} (hl : 2 * i + 1 < items.size) :
    leastChild? cmp items i = some (leastChild cmp items i hl) := by
  unfold leastChild? leastChild
  by_cases hr : 2 * i + 2 < items.size
  · rw [if_pos hr, dif_pos hr, Array.getElem?_eq_getElem hr, Array.getElem?_eq_getElem hl]
  · rw [if_neg hr, dif_neg hr]

/-- A sinking item **comes to rest in time**: every round doubles the number of its place. -/
theorem siftDownWithin_eq_some {rounds : Nat} {items : Array α} {i : Nat} (hi : i < items.size)
    (h : items.size < (i + 1) * 2 ^ rounds) :
    siftDownWithin cmp rounds items i = some (siftDown cmp items i) := by
  induction rounds generalizing items i with
  | zero => omega
  | succ rounds ih =>
    rw [siftDownWithin, siftDown]
    by_cases hl : 2 * i + 1 < items.size
    · rw [if_pos hl, dif_pos hl, leastChild?_eq_some hl]
      have hc : leastChild cmp items i hl < items.size := leastChild_lt cmp items hl
      have hdeep : 2 * (i + 1) ≤ leastChild cmp items i hl + 1 := by
        rcases leastChild_eq cmp items hl with heq | ⟨heq, -⟩ <;> omega
      have hnext : items.size < (leastChild cmp items i hl + 1) * 2 ^ rounds :=
        calc items.size < (i + 1) * 2 ^ (rounds + 1) := h
          _ = 2 * (i + 1) * 2 ^ rounds := by rw [Nat.pow_succ', ← Nat.mul_assoc, Nat.mul_comm 2]
          _ ≤ (leastChild cmp items i hl + 1) * 2 ^ rounds := Nat.mul_le_mul_right _ hdeep
      have hswap : items.swapIfInBounds i (leastChild cmp items i hl) =
          items.swap i (leastChild cmp items i hl) := by
        rw [Array.swapIfInBounds, dif_pos hi, dif_pos hc]
      dsimp only
      rw [Array.getElem?_eq_getElem hc, Array.getElem?_eq_getElem hi]
      dsimp only
      by_cases hlt : cmp items[leastChild cmp items i hl] items[i] = .lt
      · rw [if_pos hlt, if_pos hlt, hswap]
        exact ih (by simpa using hc) (by simpa using hnext)
      · rw [if_neg hlt, if_neg hlt]
    · rw [if_neg hl, dif_neg hl]

/-- **A checked push is a push.** -/
theorem pushWithin_eq_some {rounds : Nat} {h : MinHeap α} (hrounds : h.size + 1 < 2 ^ rounds)
    (x : α) : h.pushWithin cmp rounds x = some (h.push cmp x) := by
  have hup : siftUpWithin cmp rounds (h.items.push x) h.items.size =
      some (siftUp cmp (h.items.push x) h.items.size (by simp)) := siftUpWithin_eq_some _ hrounds
  rw [pushWithin, hup]
  rfl

/-- **A checked pop is a pop.** -/
theorem popWithin_eq_some {rounds : Nat} {h : MinHeap α} (hrounds : h.size < 2 ^ rounds) :
    h.popWithin cmp rounds = some (h.pop cmp) := by
  unfold popWithin pop
  by_cases hne : 0 < h.items.size
  · have hlast : h.items.back? = some h.items[h.items.size - 1] := by
      rw [Array.back?, Array.getElem?_eq_getElem]
    rw [hlast, dif_pos hne]
    dsimp only
    by_cases h0 : 0 < h.items.pop.size
    · have hset : h.items.pop.setIfInBounds 0 h.items[h.items.size - 1] =
          h.items.pop.set 0 h.items[h.items.size - 1] := by
        rw [Array.setIfInBounds, dif_pos h0]
      have hfew : h.items.pop.size < 2 ^ rounds := by
        rw [Array.size_pop]
        exact Nat.lt_of_le_of_lt (Nat.sub_le _ _) hrounds
      have hdown : siftDownWithin cmp rounds (h.items.pop.set 0 h.items[h.items.size - 1]) 0 =
          some (siftDown cmp (h.items.pop.set 0 h.items[h.items.size - 1]) 0) :=
        siftDownWithin_eq_some (by simpa using h0) (by simpa using hfew)
      rw [if_pos h0, dif_pos h0, hset, hdown, Array.getElem?_eq_getElem h0]
    · rw [if_neg h0, dif_neg h0]
  · have hnone : h.items.back? = none := by
      rw [Array.back?, Array.getElem?_eq_none (by omega)]
    rw [hnone, dif_neg hne]

/-! ## Any number of calls -/

/-- **All items come out.** -/
theorem perm_popAll (h : MinHeap α) : (h.popAll cmp).Perm h.toList := by
  induction hn : h.size generalizing h with
  | zero =>
    have hnil : h.toList = [] := List.length_eq_zero_iff.1 (by rw [length_toList, hn])
    rw [popAll_of_none (pop_eq_none_iff.2 hn), hnil]
  | succ n ih =>
    rcases hpop : h.pop cmp with _ | ⟨x, h'⟩
    · have := pop_eq_none_iff.1 hpop
      omega
    · have hsize := size_pop hpop
      rw [popAll_of_some hpop]
      exact ((ih h' (by omega)).cons x).trans (perm_pop hpop).symm

section Order

variable [Std.TransCmp cmp]

/-- No item comes before the one that is taken out. -/
theorem not_lt_of_pop {h h' : MinHeap α} {x y : α} (hh : IsHeap cmp h.items)
    (hpop : h.pop cmp = some (x, h')) (hy : y ∈ h.toList) : cmp y x ≠ .lt := by
  have hge : (cmp y x).isGE := Std.OrientedCmp.isGE_of_isLE (isLE_of_pop hh hpop hy)
  exact Ordering.isGE_iff_ne_lt.1 hge

/-- **Calls keep the order.** -/
theorem isHeap_afterCalls {h : MinHeap α} (hh : IsHeap cmp h.items) (calls : List (HeapCall α)) :
    IsHeap cmp (h.afterCalls cmp calls).items := by
  induction calls generalizing h with
  | nil => exact hh
  | cons call calls ih =>
    cases call with
    | push x => exact ih (isHeap_push hh x)
    | pop =>
      apply ih
      unfold afterPop
      split
      · exact hh
      · rename_i hpop
        exact isHeap_pop hh hpop

/-- **The items come out in order.** -/
theorem pairwise_popAll {h : MinHeap α} (hh : IsHeap cmp h.items) :
    (h.popAll cmp).Pairwise fun a b => cmp b a ≠ .lt := by
  induction hn : h.size generalizing h with
  | zero =>
    rw [popAll_of_none (pop_eq_none_iff.2 hn)]
    exact List.Pairwise.nil
  | succ n ih =>
    rcases hpop : h.pop cmp with _ | ⟨x, h'⟩
    · have := pop_eq_none_iff.1 hpop
      omega
    · have hsize := size_pop hpop
      rw [popAll_of_some hpop, List.pairwise_cons]
      refine ⟨fun y hy => ?_, ih (isHeap_pop hh hpop) (by omega)⟩
      -- what comes out later was in the heap when the least item was taken out
      have hmem : y ∈ h.toList :=
        (perm_pop hpop).mem_iff.2 (List.mem_cons_of_mem x ((perm_popAll h').mem_iff.1 hy))
      exact not_lt_of_pop hh hpop hmem

/-- **The heap after any calls** on an empty one:

* no item comes before its parent;
* a push adds its item and nothing else;
* a pop answers that there is nothing exactly if the heap is empty, and otherwise takes out an item that
  no other one comes before, and nothing else;
* with every access checked, both end within as many rounds as the number of items can be halved;
* taken out until there is none, the items come in order. -/
theorem leastFirst_afterCalls (calls : List (HeapCall α)) :
    let h : MinHeap α := ({} : MinHeap α).afterCalls cmp calls
    (∀ (i : Nat) (hi : i < h.items.size), 0 < i → cmp h.items[i] h.items[(i - 1) / 2] ≠ .lt) ∧
      (∀ x, (h.push cmp x).toList.Perm (x :: h.toList)) ∧
      (h.pop cmp = none ↔ h.toList = []) ∧
      (∀ x h', h.pop cmp = some (x, h') →
        (∀ y ∈ h.toList, cmp y x ≠ .lt) ∧ h.toList.Perm (x :: h'.toList)) ∧
      (∀ x, h.pushWithin cmp (Nat.log2 (h.size + 1) + 1) x = some (h.push cmp x)) ∧
      h.popWithin cmp (Nat.log2 (h.size + 1) + 1) = some (h.pop cmp) ∧
      (h.popAll cmp).Perm h.toList ∧ (h.popAll cmp).Pairwise fun a b => cmp b a ≠ .lt := by
  intro h
  have hh : IsHeap cmp h.items := isHeap_afterCalls isHeap_empty calls
  have hrounds : h.size + 1 < 2 ^ (Nat.log2 (h.size + 1) + 1) := Nat.lt_log2_self
  refine ⟨fun i hi h0 => ?_, fun x => perm_push h x, ?_, fun x h' hpop => ?_,
    pushWithin_eq_some hrounds, popWithin_eq_some (by omega), perm_popAll h, pairwise_popAll hh⟩
  · have hp : parent i < h.items.size := Nat.lt_trans (parent_lt h0) hi
    have hle : (cmp h.items[parent i] h.items[i]).isLE :=
      hh i _ _ h0 (Array.getElem?_eq_getElem hp) (Array.getElem?_eq_getElem hi)
    exact Ordering.isGE_iff_ne_lt.1 (Std.OrientedCmp.isGE_of_isLE hle)
  · rw [pop_eq_none_iff, ← length_toList, List.length_eq_zero_iff]
  · exact ⟨fun y hy => not_lt_of_pop hh hpop hy, perm_pop hpop⟩

end Order

/-- Items that are equal under the comparison, and a pop between the pushes. -/
theorem leastFirst_afterCalls_ties :
    let cmp : Nat × Nat → Nat × Nat → Ordering := compareOn Prod.fst
    let h : MinHeap (Nat × Nat) := ({} : MinHeap (Nat × Nat)).afterCalls cmp
      [.push (2, 0), .push (1, 0), .pop, .push (1, 1), .push (0, 2), .push (1, 3), .push (0, 4)]
    Std.TransCmp cmp ∧ h.pop cmp ≠ none ∧ (h.popAll cmp).Perm h.toList ∧
      (h.popAll cmp).Pairwise fun a b => cmp b a ≠ .lt := by
  intro cmp h
  have htrans : Std.TransCmp cmp := inferInstanceAs (Std.TransCmp (compareOn Prod.fst))
  obtain ⟨-, -, -, -, -, -, hperm, hordered⟩ := @leastFirst_afterCalls _ cmp htrans
    [.push (2, 0), .push (1, 0), .pop, .push (1, 1), .push (0, 2), .push (1, 3), .push (0, 4)]
  have hsize : h.size = 5 := by decide +kernel
  refine ⟨htrans, fun hpop => ?_, hperm, hordered⟩
  have hzero : h.size = 0 := pop_eq_none_iff.1 hpop
  omega

end MinHeap

end RecordSort
