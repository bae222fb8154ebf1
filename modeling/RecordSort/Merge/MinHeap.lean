/-! # Binary min-heaps

A **min-heap** keeps items in an array in which the item at index `i` has its children at `2 * i + 1`
and `2 * i + 2` and comes after neither of them. The comparison is handed to every operation.

* **`push`** — adds an item at the end and lets it rise past the parents it comes before.
* **`pop`** — takes the item at the root, puts the last item there and lets it sink past the children
  that come before it. -/

namespace RecordSort

universe u

variable {α : Type u}

/-- An array read as a binary tree with its least item at the root. -/
structure MinHeap (α : Type u) where
  /-- The items, level by level. -/
  items : Array α := #[]

namespace MinHeap

/-- The number of items. -/
def size (h : MinHeap α) : Nat := h.items.size

/-- The index of the parent of the item at index `i`. -/
def parent (i : Nat) : Nat := (i - 1) / 2

/-- A parent stands before its children. -/
theorem parent_lt {i : Nat} (h : 0 < i) : parent i < i := by
  unfold parent; omega

/-- Lets the item at index `i` **rise**: as long as it comes before its parent, they change places. -/
def siftUp (cmp : α → α → Ordering) (items : Array α) (i : Nat) (hi : i < items.size) : Array α :=
  if h : 0 < i then
    have hp : parent i < items.size := Nat.lt_trans (parent_lt h) hi
    if cmp items[i] items[parent i] = .lt then
      siftUp cmp (items.swap i (parent i)) (parent i) (by simpa using hp)
    else items
  else items
termination_by i
decreasing_by exact parent_lt h

/-- The index of the child of `i` that the item at `i` has to be compared with: the right one if it is
there and comes before the left one, and the left one otherwise. -/
def leastChild (cmp : α → α → Ordering) (items : Array α) (i : Nat) (hl : 2 * i + 1 < items.size) :
    Nat :=
  if hr : 2 * i + 2 < items.size then
    if cmp items[2 * i + 2] items[2 * i + 1] = .lt then 2 * i + 2 else 2 * i + 1
  else 2 * i + 1

/-- The least child is one of the two children. -/
theorem leastChild_eq (cmp : α → α → Ordering) (items : Array α) {i : Nat}
    (hl : 2 * i + 1 < items.size) :
    leastChild cmp items i hl = 2 * i + 1 ∨
      leastChild cmp items i hl = 2 * i + 2 ∧ 2 * i + 2 < items.size := by
  unfold leastChild
  split
  · split
    · exact Or.inr ⟨rfl, by assumption⟩
    · exact Or.inl rfl
  · exact Or.inl rfl

/-- The least child is in the array. -/
theorem leastChild_lt (cmp : α → α → Ordering) (items : Array α) {i : Nat}
    (hl : 2 * i + 1 < items.size) : leastChild cmp items i hl < items.size := by
  rcases leastChild_eq cmp items hl with h | h <;> omega

/-- The least child stands behind its parent. -/
theorem lt_leastChild (cmp : α → α → Ordering) (items : Array α) {i : Nat}
    (hl : 2 * i + 1 < items.size) : i < leastChild cmp items i hl := by
  rcases leastChild_eq cmp items hl with h | h <;> omega

/-- Lets the item at index `i` **sink**: as long as its least child comes before it, they change
places. -/
def siftDown (cmp : α → α → Ordering) (items : Array α) (i : Nat) : Array α :=
  if hl : 2 * i + 1 < items.size then
    have hi : i < items.size := by omega
    have hc : leastChild cmp items i hl < items.size := leastChild_lt cmp items hl
    if cmp items[leastChild cmp items i hl] items[i] = .lt then
      siftDown cmp (items.swap i (leastChild cmp items i hl)) (leastChild cmp items i hl)
    else items
  else items
termination_by items.size - i
decreasing_by
  have := lt_leastChild cmp items hl
  simp only [Array.size_swap]
  omega

/-- Moving an item up keeps the size. -/
@[simp] theorem size_siftUp (cmp : α → α → Ordering) (items : Array α) (i : Nat)
    (hi : i < items.size) : (siftUp cmp items i hi).size = items.size := by
  fun_induction siftUp cmp items i hi with
  | case1 items i hi h hp hlt ih => rw [ih, Array.size_swap]
  | case2 => rfl
  | case3 => rfl

/-- Moving an item down keeps the size. -/
@[simp] theorem size_siftDown (cmp : α → α → Ordering) (items : Array α) (i : Nat) :
    (siftDown cmp items i).size = items.size := by
  fun_induction siftDown cmp items i with
  | case1 items i hl hi hc hlt ih => rw [ih, Array.size_swap]
  | case2 => rfl
  | case3 => rfl

/-- **Adds an item.** -/
def push (cmp : α → α → Ordering) (h : MinHeap α) (x : α) : MinHeap α :=
  ⟨siftUp cmp (h.items.push x) h.items.size (by simp)⟩

/-- **Takes a least item out**, or nothing if there is none. -/
def pop (cmp : α → α → Ordering) (h : MinHeap α) : Option (α × MinHeap α) :=
  if hne : 0 < h.items.size then
    let last := h.items[h.items.size - 1]
    let others := h.items.pop
    -- the last item fills the gap at the root, unless it is the root
    if h0 : 0 < others.size then
      some (others[0], ⟨siftDown cmp (others.set 0 last) 0⟩)
    else some (last, ⟨others⟩)
  else none

/-- A pushed item makes the heap larger by one. -/
@[simp] theorem size_push (cmp : α → α → Ordering) (h : MinHeap α) (x : α) :
    (h.push cmp x).size = h.size + 1 := by
  simp [push, size]

/-- Taking an item out leaves one item less. -/
theorem size_pop {cmp : α → α → Ordering} {h h' : MinHeap α} {x : α}
    (hpop : h.pop cmp = some (x, h')) : h'.size + 1 = h.size := by
  unfold pop at hpop
  split at hpop
  · dsimp only at hpop
    split at hpop <;> simp only [Option.some.injEq, Prod.mk.injEq] at hpop <;>
      (rw [← hpop.2]; simp [size]; omega)
  · simp at hpop

/-- There is nothing to take out of a heap exactly if it is empty. -/
theorem pop_eq_none_iff {cmp : α → α → Ordering} {h : MinHeap α} :
    h.pop cmp = none ↔ h.size = 0 := by
  unfold pop
  split
  · dsimp only
    split <;> simp only [reduceCtorEq, false_iff, size] <;> omega
  · simp only [size, true_iff]
    omega

end MinHeap

end RecordSort
