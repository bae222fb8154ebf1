import RecordSort.Merge.MinHeap

/-! # The order of a min-heap

A heap is **in order** if no item comes before its parent. An item that has to rise or to sink leaves
the array in order everywhere but at one index, and the rising or sinking mends that:

* **`RisesAt`** — in order but between the item at an index and its parent.
* **`SinksAt`** — in order but between the item at an index and its children.
* **`isHeap_siftUp`**, **`isHeap_siftDown`** — the array is in order when the item has come to rest.
* **`isHeap_push`**, **`isHeap_pop`**, **`perm_push`**, **`perm_pop`**, **`isLE_of_pop`** — what the two
  operations do to the order and to the items, and that a least item is taken out. -/

namespace RecordSort

universe u

namespace MinHeap

variable {α : Type u} {cmp : α → α → Ordering}

/-- The items of a heap, in the order of the array. -/
def toList (h : MinHeap α) : List α := h.items.toList

/-- A heap has as many items as its list. -/
@[simp] theorem length_toList (h : MinHeap α) : h.toList.length = h.size := by
  simp [toList, size]

/-- The item at index `i` does not come before its parent, if it has one. -/
def InOrderAt (cmp : α → α → Ordering) (items : Array α) (i : Nat) : Prop :=
  ∀ a b, 0 < i → items[parent i]? = some a → items[i]? = some b → (cmp a b).isLE

/-- **An array in order**: no item comes before its parent. -/
def IsHeap (cmp : α → α → Ordering) (items : Array α) : Prop := ∀ i, InOrderAt cmp items i

/-- The grandchildren across the index `hole` are in order: no child of it comes before its parent. -/
def InOrderAcross (cmp : α → α → Ordering) (items : Array α) (hole : Nat) : Prop :=
  ∀ i a b, 0 < hole → 0 < i → parent i = hole →
    items[parent hole]? = some a → items[i]? = some b → (cmp a b).isLE

/-- In order, but the item at `hole` may come before its parent. -/
structure RisesAt (cmp : α → α → Ordering) (items : Array α) (hole : Nat) : Prop where
  /-- All other items are in order. -/
  elsewhere : ∀ i, i ≠ hole → InOrderAt cmp items i
  /-- The items next to the hole are in order. -/
  across : InOrderAcross cmp items hole

/-- In order, but the item at `hole` may come after its children. -/
structure SinksAt (cmp : α → α → Ordering) (items : Array α) (hole : Nat) : Prop where
  /-- All items but the children of the hole are in order. -/
  elsewhere : ∀ i, parent i ≠ hole → InOrderAt cmp items i
  /-- The items next to the hole are in order. -/
  across : InOrderAcross cmp items hole

/-- The empty array is in heap order. -/
theorem isHeap_empty : IsHeap cmp (#[] : Array α) := by
  intro i a b _ ha
  simp at ha

/-- An array in order is still in order without its last item. -/
theorem isHeap_dropLast {items : Array α} (h : IsHeap cmp items) : IsHeap cmp items.pop := by
  intro i a b hi ha hb
  rw [Array.getElem?_pop] at ha hb
  split at ha
  · split at hb
    · exact h i a b hi ha hb
    · simp at hb
  · simp at ha

/-! ## Items that change places -/

section Swap

variable {items : Array α} {i j : Nat} {hi : i < items.size} {hj : j < items.size}

/-- After a swap the first place has the second item. -/
theorem getElem?_swap_left : (items.swap i j hi hj)[i]? = some items[j] := by
  rw [Array.getElem?_swap]
  split
  · simp_all
  · simp

/-- After a swap the second place has the first item. -/
theorem getElem?_swap_right : (items.swap i j hi hj)[j]? = some items[i] := by
  rw [Array.getElem?_swap, if_pos rfl]

/-- A swap leaves the other places alone. -/
theorem getElem?_swap_of_ne {k : Nat} (hki : k ≠ i) (hkj : k ≠ j) :
    (items.swap i j hi hj)[k]? = items[k]? := by
  rw [Array.getElem?_swap, if_neg hkj.symm, if_neg hki.symm]

end Swap

section Order

variable [Std.TransCmp cmp]

/-- **The root is least**: no item of an array in order comes before the first one. -/
theorem isLE_root {items : Array α} (h : IsHeap cmp items) {a : α} (ha : items[0]? = some a)
    {i : Nat} {b : α} (hb : items[i]? = some b) : (cmp a b).isLE := by
  induction i using Nat.strongRecOn generalizing b with
  | _ i ih =>
    rcases Nat.eq_zero_or_pos i with rfl | hi
    · obtain rfl : a = b := by simpa [ha] using hb
      simp [Std.ReflCmp.compare_self]
    · -- the parent is in the array, since it stands before the item
      have hlt : parent i < items.size :=
        Nat.lt_trans (parent_lt hi) (Array.getElem?_eq_some_iff.1 hb).1
      have hp : items[parent i]? = some items[parent i] := by simp [hlt]
      exact Std.TransCmp.isLE_trans (ih (parent i) (parent_lt hi) hp) (h i _ b hi hp hb)

/-! ## Rising -/

/-- The item at the hole comes before its parent: they change places, and the hole moves up. -/
theorem RisesAt.swap {items : Array α} {hole : Nat} (h : RisesAt cmp items hole) (h0 : 0 < hole)
    (hlt : hole < items.size) (hp : parent hole < items.size)
    (hbefore : cmp items[hole] items[parent hole] = .lt) :
    RisesAt cmp (items.swap hole (parent hole)) (parent hole) := by
  have hup : parent hole < hole := parent_lt h0
  have hpar : items[parent hole]? = some items[parent hole] := by simp [hp]
  have hle : (cmp items[hole] items[parent hole]).isLE := Ordering.isLE_of_eq_lt hbefore
  -- no sibling of the hole comes before the old parent
  have hsibling : ∀ i b, 0 < i → i ≠ hole → parent i = parent hole → items[i]? = some b →
      (cmp items[parent hole] b).isLE := by
    intro i b hi0 hih hpi hb
    exact h.elsewhere i hih _ b hi0 (by rw [hpi]; exact hpar) hb
  constructor
  · intro i hi a b hi0 ha hb
    by_cases hih : i = hole
    -- the old parent stands below the item that rose
    · subst hih
      rw [getElem?_swap_right, Option.some.injEq] at ha
      rw [getElem?_swap_left, Option.some.injEq] at hb
      rwa [← ha, ← hb]
    rw [getElem?_swap_of_ne hih hi] at hb
    by_cases hpi : parent i = parent hole
    · rw [hpi, getElem?_swap_right, Option.some.injEq] at ha
      rw [← ha]
      exact Std.TransCmp.isLE_trans hle (hsibling i b hi0 hih hpi hb)
    by_cases hph : parent i = hole
    -- the children of the hole stand below the old parent
    · rw [hph, getElem?_swap_left, Option.some.injEq] at ha
      rw [← ha]
      exact h.across i _ b h0 hi0 hph hpar hb
    · rw [getElem?_swap_of_ne hph hpi] at ha
      exact h.elsewhere i hih a b hi0 ha hb
  · intro i a b hq0 hi0 hpi ha hb
    have hgrand := parent_lt hq0
    rw [getElem?_swap_of_ne (by omega) (by omega)] at ha
    have hle' : (cmp a items[parent hole]).isLE :=
      h.elsewhere (parent hole) (by omega) a _ hq0 ha hpar
    by_cases hih : i = hole
    · rw [hih, getElem?_swap_left, Option.some.injEq] at hb
      rwa [← hb]
    · rw [getElem?_swap_of_ne hih (by have := parent_lt hi0; omega)] at hb
      exact Std.TransCmp.isLE_trans hle' (hsibling i b hi0 hih hpi hb)

omit [Std.TransCmp cmp] in
/-- An item that does not come before its parent is at rest. -/
theorem RisesAt.isHeap {items : Array α} {hole : Nat} (h : RisesAt cmp items hole)
    (hrest : InOrderAt cmp items hole) : IsHeap cmp items := by
  intro i
  by_cases hi : i = hole
  · exact hi ▸ hrest
  · exact h.elsewhere i hi

/-- **Rising ends in order.** -/
theorem isHeap_siftUp {items : Array α} {i : Nat} {hi : i < items.size}
    (h : RisesAt cmp items i) : IsHeap cmp (siftUp cmp items i hi) := by
  fun_induction siftUp cmp items i hi with
  | case1 items i hi h0 hp hlt ih => exact ih (h.swap h0 hi hp hlt)
  | case2 items i hi h0 hp hnlt =>
    refine h.isHeap fun a b _ ha hb => ?_
    obtain rfl : items[parent i] = a := by simpa [hp] using ha
    obtain rfl : items[i] = b := by simpa [hi] using hb
    exact Std.OrientedCmp.isLE_of_isGE (Ordering.isGE_iff_ne_lt.2 hnlt)
  | case3 items i hi h0 => exact h.isHeap fun a b hpos => absurd hpos h0

/-! ## Sinking -/

omit [Std.TransCmp cmp] in
/-- The items at the children of an index are those at `2 * i + 1` and `2 * i + 2`. -/
theorem eq_or_eq_of_parent_eq {i k : Nat} (hi : 0 < i) (h : parent i = k) :
    i = 2 * k + 1 ∨ i = 2 * k + 2 := by
  unfold parent at h; omega

omit [Std.TransCmp cmp] in
/-- The parent of the least child is where one came from. -/
theorem parent_leastChild {items : Array α} {i : Nat} (hl : 2 * i + 1 < items.size) :
    parent (leastChild cmp items i hl) = i := by
  rcases leastChild_eq cmp items hl with h | ⟨h, -⟩ <;> rw [h] <;> unfold parent <;> omega

/-- The least child of an index does not come after any of its children. -/
theorem isLE_leastChild {items : Array α} {i : Nat} (hl : 2 * i + 1 < items.size)
    (hc : leastChild cmp items i hl < items.size) {k : Nat} {b : α} (hk0 : 0 < k)
    (hk : parent k = i) (hb : items[k]? = some b) :
    (cmp items[leastChild cmp items i hl] b).isLE := by
  have hkb : ∃ h : k < items.size, items[k] = b := Array.getElem?_eq_some_iff.1 hb
  obtain ⟨hlt, rfl⟩ := hkb
  unfold leastChild
  split
  · rename_i hr
    split
    -- the right child comes before the left one
    · rename_i hbefore
      rcases eq_or_eq_of_parent_eq hk0 hk with rfl | rfl
      · exact Ordering.isLE_of_eq_lt hbefore
      · simp [Std.ReflCmp.compare_self]
    · rename_i hnot
      rcases eq_or_eq_of_parent_eq hk0 hk with rfl | rfl
      · simp [Std.ReflCmp.compare_self]
      · exact Std.OrientedCmp.isLE_of_isGE (Ordering.isGE_iff_ne_lt.2 hnot)
  -- there is no right child
  · rcases eq_or_eq_of_parent_eq hk0 hk with rfl | rfl
    · simp [Std.ReflCmp.compare_self]
    · contradiction

/-- A child comes before the item at the hole: the least child changes places with it, and the hole
moves down. -/
theorem SinksAt.swap {items : Array α} {hole : Nat} (h : SinksAt cmp items hole)
    (hl : 2 * hole + 1 < items.size) (hlt : hole < items.size)
    (hc : leastChild cmp items hole hl < items.size)
    (hbefore : cmp items[leastChild cmp items hole hl] items[hole] = .lt) :
    SinksAt cmp (items.swap hole (leastChild cmp items hole hl)) (leastChild cmp items hole hl) := by
  have hleast : ∀ i b, 0 < i → parent i = hole → items[i]? = some b →
      (cmp items[leastChild cmp items hole hl] b).isLE :=
    fun i b hi0 hpi hb => isLE_leastChild hl hc hi0 hpi hb
  have hpc : parent (leastChild cmp items hole hl) = hole := parent_leastChild hl
  have hdown := lt_leastChild cmp items hl
  have hcs : items[leastChild cmp items hole hl]? = some items[leastChild cmp items hole hl] := by
    simp [hc]
  generalize leastChild cmp items hole hl = c at *
  constructor
  · intro i hpi a b hi0 ha hb
    by_cases hic : i = c
    -- the item that sank stands below the child that rose
    · subst hic
      rw [hpc, getElem?_swap_left, Option.some.injEq] at ha
      rw [getElem?_swap_right, Option.some.injEq] at hb
      rw [← ha, ← hb]
      exact Ordering.isLE_of_eq_lt hbefore
    by_cases hih : i = hole
    -- the child that rose stands below the parent of the hole
    · subst hih
      have hup := parent_lt hi0
      rw [getElem?_swap_of_ne (by omega) hpi] at ha
      rw [getElem?_swap_left, Option.some.injEq] at hb
      rw [← hb]
      exact h.across c a _ hi0 (by omega) hpc ha hcs
    rw [getElem?_swap_of_ne hih hic] at hb
    by_cases hph : parent i = hole
    · rw [hph, getElem?_swap_left, Option.some.injEq] at ha
      rw [← ha]
      exact hleast i b hi0 hph hb
    · rw [getElem?_swap_of_ne hph hpi] at ha
      exact h.elsewhere i hph a b hi0 ha hb
  · intro i a b _ hi0 hpi ha hb
    have hdown' : c < i := hpi ▸ parent_lt hi0
    rw [hpc, getElem?_swap_left, Option.some.injEq] at ha
    rw [getElem?_swap_of_ne (by omega) (by omega)] at hb
    rw [← ha]
    exact h.elsewhere i (by omega) _ b hi0 (by rw [hpi]; exact hcs) hb

omit [Std.TransCmp cmp] in
/-- An item that does not come after any of its children is at rest. -/
theorem SinksAt.isHeap {items : Array α} {hole : Nat} (h : SinksAt cmp items hole)
    (hrest : ∀ i, parent i = hole → InOrderAt cmp items i) : IsHeap cmp items := by
  intro i
  by_cases hi : parent i = hole
  · exact hrest i hi
  · exact h.elsewhere i hi

/-- **Sinking ends in order.** -/
theorem isHeap_siftDown {items : Array α} {i : Nat} (h : SinksAt cmp items i) :
    IsHeap cmp (siftDown cmp items i) := by
  fun_induction siftDown cmp items i with
  | case1 items i hl hi hc hlt ih => exact ih (h.swap hl hi hc hlt)
  | case2 items i hl hi hc hnlt =>
    refine h.isHeap fun k hk a b hk0 ha hb => ?_
    obtain rfl : items[i] = a := by simpa [hk, hi] using ha
    have hle : (cmp items[i] items[leastChild cmp items i hl]).isLE :=
      Std.OrientedCmp.isLE_of_isGE (Ordering.isGE_iff_ne_lt.2 hnlt)
    exact Std.TransCmp.isLE_trans hle (isLE_leastChild hl hc hk0 hk hb)
  | case3 items i hl =>
    refine h.isHeap fun k hk a b hk0 _ hb => ?_
    have hkb : k < items.size := (Array.getElem?_eq_some_iff.1 hb).1
    have := eq_or_eq_of_parent_eq hk0 hk
    omega

/-! ## The two operations -/

/-- **Adding an item** keeps the order. -/
theorem isHeap_push {h : MinHeap α} (hh : IsHeap cmp h.items) (x : α) :
    IsHeap cmp (h.push cmp x).items := by
  refine isHeap_siftUp ⟨fun i hi a b hi0 ha hb => ?_, fun i a b _ hi0 hpi _ hb => ?_⟩
  · rw [Array.getElem?_push, if_neg hi] at hb
    have hlt := (Array.getElem?_eq_some_iff.1 hb).1
    rw [Array.getElem?_push, if_neg (by have := parent_lt hi0; omega)] at ha
    exact hh i a b hi0 ha hb
  -- the new item has no children
  · have hup := parent_lt hi0
    have hlt := (Array.getElem?_eq_some_iff.1 hb).1
    rw [Array.size_push] at hlt
    omega

/-- **Taking an item out** keeps the order. -/
theorem isHeap_pop {h h' : MinHeap α} {x : α} (hh : IsHeap cmp h.items)
    (hpop : h.pop cmp = some (x, h')) : IsHeap cmp h'.items := by
  have hdrop := isHeap_dropLast hh
  unfold pop at hpop
  split at hpop
  · dsimp only at hpop
    split at hpop <;> simp only [Option.some.injEq, Prod.mk.injEq] at hpop
    · rw [← hpop.2]
      refine isHeap_siftDown ⟨fun i hi a b hi0 ha hb => ?_, fun i a b h0 => absurd h0 (by simp)⟩
      rw [Array.getElem?_set_ne _ (Ne.symm hi)] at ha
      rw [Array.getElem?_set_ne _ (by omega)] at hb
      exact hdrop i a b hi0 ha hb
    · rw [← hpop.2]
      exact hdrop
  · simp at hpop

/-- **The item taken out is least.** -/
theorem isLE_of_pop {h h' : MinHeap α} {x : α} (hh : IsHeap cmp h.items)
    (hpop : h.pop cmp = some (x, h')) {y : α} (hy : y ∈ h.toList) : (cmp x y).isLE := by
  obtain ⟨i, hi, rfl⟩ := List.getElem_of_mem hy
  have hroot : h.items[0]? = some x := by
    unfold pop at hpop
    split at hpop
    · rename_i hne
      dsimp only at hpop
      split at hpop <;> simp only [Option.some.injEq, Prod.mk.injEq] at hpop
      · simpa [hne] using hpop.1
      · rename_i h0
        have hone : h.items.size - 1 = 0 := by
          rw [Array.size_pop] at h0
          omega
        simpa [hone, hne] using hpop.1
    · simp at hpop
  exact isLE_root hh hroot (i := i) (by simp [toList])

end Order

/-- Moving an item up only changes the order of the items. -/
theorem perm_siftUp (items : Array α) (i : Nat) (hi : i < items.size) :
    (siftUp cmp items i hi).Perm items := by
  fun_induction siftUp cmp items i hi with
  | case1 items i hi h0 hp hlt ih => exact ih.trans (Array.swap_perm hi hp)
  | case2 => exact Array.Perm.refl _
  | case3 => exact Array.Perm.refl _

/-- So does moving an item down. -/
theorem perm_siftDown (items : Array α) (i : Nat) : (siftDown cmp items i).Perm items := by
  fun_induction siftDown cmp items i with
  | case1 items i hl hi hc hlt ih => exact ih.trans (Array.swap_perm hi hc)
  | case2 => exact Array.Perm.refl _
  | case3 => exact Array.Perm.refl _

/-- Adding an item adds it and nothing else. -/
theorem perm_push (h : MinHeap α) (x : α) : (h.push cmp x).toList.Perm (x :: h.toList) := by
  have hperm : (h.push cmp x).toList.Perm (h.items.push x).toList :=
    (perm_siftUp (h.items.push x) _ _).toList
  rw [Array.toList_push] at hperm
  exact hperm.trans (List.perm_append_singleton x h.toList)

/-- Taking an item out takes it out and nothing else. -/
theorem perm_pop {h h' : MinHeap α} {x : α} (hpop : h.pop cmp = some (x, h')) :
    h.toList.Perm (x :: h'.toList) := by
  unfold pop at hpop
  split at hpop
  · rename_i hne
    have hlast : h.toList = h.items.pop.toList ++ [h.items[h.items.size - 1]] := by
      have hne' : h.items.toList ≠ [] := fun hnil => by simp [← Array.length_toList, hnil] at hne
      rw [Array.toList_pop, toList]
      exact (List.dropLast_concat_getLast hne').symm.trans (by simp [List.getLast_eq_getElem])
    rw [hlast]
    generalize h.items[h.items.size - 1] = last at hpop ⊢
    dsimp only at hpop
    split at hpop <;> simp only [Option.some.injEq, Prod.mk.injEq] at hpop
    -- the last item takes the place of the first one
    · rename_i h0
      have hperm : h'.toList.Perm (h.items.pop.toList.set 0 last) := by
        rw [← hpop.2, ← Array.toList_set]
        exact (perm_siftDown _ 0).toList
      have hx : h.items.pop.toList[0]? = some x := by
        rw [Array.getElem?_toList, Array.getElem?_eq_getElem h0, hpop.1]
      obtain ⟨rest, hrest⟩ : ∃ rest, h.items.pop.toList = x :: rest := by
        cases hl : h.items.pop.toList with
        | nil => rw [hl] at hx; simp at hx
        | cons y rest => rw [hl] at hx; exact ⟨rest, by simpa using hx⟩
      rw [hrest] at hperm ⊢
      exact ((List.perm_append_singleton last rest).trans hperm.symm).cons x
    · rename_i h0
      have hnil : h.items.pop.toList = [] := by
        rw [← List.length_eq_zero_iff, Array.length_toList]; omega
      rw [← hpop.1, ← hpop.2, toList, hnil]
      simp
  · simp at hpop

end MinHeap

end RecordSort
