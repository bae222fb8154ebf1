import RecordSort.Merge.MinHeap

/-! # Calls to a heap, and the heap with its steps checked

A heap starts empty and is changed by calls alone. The operations are written down a second time here,
with nothing taken for granted: every access to the array is *checked*, and the rounds in which an item
rises or sinks are *counted*. Such an operation fails if an index lies outside of the array or if an item
does not come to rest within the rounds it is given.

* **`HeapCall`**, **`MinHeap.afterCalls`** — calls that are made to a heap one after the other.
* **`MinHeap.popAll`** — takes items out until there is none.
* **`MinHeap.siftUpWithin`**, **`siftDownWithin`** — the checked rising and sinking of an item.
* **`MinHeap.pushWithin`**, **`popWithin`** — the two operations made of them. -/

namespace RecordSort

universe u

variable {α : Type u}

/-- What can be asked of a heap. -/
inductive HeapCall (α : Type u)
  /-- An item is added. -/
  | push (x : α)
  /-- A least item is taken out, if there is one. -/
  | pop
  deriving DecidableEq, Repr

namespace MinHeap

/-- The heap after a pop, whether there was an item to take out or not. -/
def afterPop (cmp : α → α → Ordering) (h : MinHeap α) : MinHeap α :=
  match h.pop cmp with
  | none => h
  | some (_, h') => h'

/-- The heap **after calls** that are made one after the other. -/
def afterCalls (cmp : α → α → Ordering) (h : MinHeap α) : List (HeapCall α) → MinHeap α
  | [] => h
  | .push x :: calls => (h.push cmp x).afterCalls cmp calls
  | .pop :: calls => (h.afterPop cmp).afterCalls cmp calls

/-- Takes items out **until there is none**, and lists them in the order they come. -/
def popAll (cmp : α → α → Ordering) (h : MinHeap α) : List α :=
  match _h : h.pop cmp with
  | none => []
  | some (x, h') => x :: popAll cmp h'
termination_by h.size
decreasing_by
  have := size_pop _h
  omega

/-- Nothing is taken from a heap that has no top. -/
theorem popAll_of_none {cmp : α → α → Ordering} {h : MinHeap α} (hpop : h.pop cmp = none) :
    h.popAll cmp = [] := by
  rw [popAll]
  split <;> simp_all

/-- The top is taken first, and then what is left. -/
theorem popAll_of_some {cmp : α → α → Ordering} {h h' : MinHeap α} {x : α}
    (hpop : h.pop cmp = some (x, h')) : h.popAll cmp = x :: h'.popAll cmp := by
  rw [popAll]
  split <;> simp_all

/-! ## Checked steps -/

/-- Lets the item at index `i` **rise within a number of rounds**, with every access checked. -/
def siftUpWithin (cmp : α → α → Ordering) : Nat → Array α → Nat → Option (Array α)
  | 0, _, _ => none
  | rounds + 1, items, i =>
    if 0 < i then
      match items[i]?, items[parent i]? with
      | some x, some above =>
        if cmp x above = .lt then
          siftUpWithin cmp rounds (items.swapIfInBounds i (parent i)) (parent i)
        else some items
      | _, _ => none
    else some items

/-- The child of `i` to be compared with, with every access checked. -/
def leastChild? (cmp : α → α → Ordering) (items : Array α) (i : Nat) : Option Nat :=
  if 2 * i + 2 < items.size then
    match items[2 * i + 2]?, items[2 * i + 1]? with
    | some right, some left => some (if cmp right left = .lt then 2 * i + 2 else 2 * i + 1)
    | _, _ => none
  else some (2 * i + 1)

/-- Lets the item at index `i` **sink within a number of rounds**, with every access checked. -/
def siftDownWithin (cmp : α → α → Ordering) : Nat → Array α → Nat → Option (Array α)
  | 0, _, _ => none
  | rounds + 1, items, i =>
    if 2 * i + 1 < items.size then
      match leastChild? cmp items i with
      | none => none
      | some c =>
        match items[c]?, items[i]? with
        | some below, some x =>
          if cmp below x = .lt then siftDownWithin cmp rounds (items.swapIfInBounds i c) c
          else some items
        | _, _ => none
    else some items

/-- **Adds an item** that rises within a number of rounds, with every access checked. -/
def pushWithin (cmp : α → α → Ordering) (rounds : Nat) (h : MinHeap α) (x : α) :
    Option (MinHeap α) :=
  (siftUpWithin cmp rounds (h.items.push x) h.items.size).map fun items => ⟨items⟩

/-- **Takes a least item out** while the item in its place sinks within a number of rounds, with every
access checked. -/
def popWithin (cmp : α → α → Ordering) (rounds : Nat) (h : MinHeap α) :
    Option (Option (α × MinHeap α)) :=
  match h.items.back? with
  | none => some none
  | some last =>
    let others := h.items.pop
    if 0 < others.size then
      match others[0]?, siftDownWithin cmp rounds (others.setIfInBounds 0 last) 0 with
      | some top, some items => some (some (top, ⟨items⟩))
      | _, _ => none
    else some (some (last, ⟨others⟩))

end MinHeap

end RecordSort
