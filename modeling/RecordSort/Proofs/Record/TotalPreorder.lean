import RecordSort.Record.Order

/-! # The orders are total preorders

A comparison is a **total preorder** (`Std.TransCmp`) if swapping its arguments swaps its answer and if
"not after" is transitive; it may still call two different records equal. All orders of the library are
total preorders, since each is the byte order or the order of numbers, of a key, or of one after the
other. -/

namespace RecordSort

universe u v

/-- Comparing by a key is a total preorder if comparing the keys is. -/
theorem transCmp_comap {α : Type u} {β : Type v} (cmp : β → β → Ordering) [Std.TransCmp cmp]
    (key : α → β) : Std.TransCmp fun a b => cmp (key a) (key b) where
  eq_swap := Std.OrientedCmp.eq_swap
  isLE_trans := Std.TransCmp.isLE_trans

/-- Comparing backwards is a total preorder if comparing is. -/
theorem transCmp_flip {α : Type u} (cmp : α → α → Ordering) [Std.TransCmp cmp] :
    Std.TransCmp fun a b => cmp b a where
  eq_swap := Std.OrientedCmp.eq_swap
  isLE_trans hab hbc := Std.TransCmp.isLE_trans hbc hab

/-- Deciding by one comparison, and where it calls two values equal by another one, is a total preorder
if both are. -/
theorem transCmp_then {α : Type u} (cmp₁ cmp₂ : α → α → Ordering) [Std.TransCmp cmp₁]
    [Std.TransCmp cmp₂] : Std.TransCmp fun a b => (cmp₁ a b).then (cmp₂ a b) :=
  inferInstanceAs (Std.TransCmp (compareLex cmp₁ cmp₂))

namespace Record

/-- The byte order is the lexicographic order of lists. -/
theorem byteOrder_eq_compareLex (a b : Record) : byteOrder a b = List.compareLex compare a b := by
  induction a generalizing b with
  | nil => cases b <;> rfl
  | cons x xs ih =>
    cases b with
    | nil => rfl
    | cons y ys => rw [byteOrder, List.compareLex_cons_cons, ih]

/-- Comparing bytes is a total preorder. -/
instance : Std.TransCmp byteOrder := by
  have h : byteOrder = List.compareLex compare := by
    funext a b
    exact byteOrder_eq_compareLex a b
  rw [h]
  infer_instance

/-- So is comparing by a key. -/
instance (key : Record → Record) : Std.TransCmp (orderBy key) := transCmp_comap byteOrder key

/-- So is comparing bytes the other way round. -/
instance : Std.TransCmp descending := transCmp_flip byteOrder

/-- So is comparing first bytes. -/
instance : Std.TransCmp firstByteOrder := inferInstanceAs (Std.TransCmp (orderBy _))

/-- So is comparing lengths. -/
instance : Std.TransCmp lengthOrder := transCmp_comap compare List.length

/-- So is comparing lengths, and bytes where these are equal. -/
instance : Std.TransCmp shortlex := transCmp_then lengthOrder byteOrder

/-- So is comparing without regard to case. -/
instance : Std.TransCmp caseless := inferInstanceAs (Std.TransCmp (orderBy _))

/-- So is comparing from the ends. -/
instance : Std.TransCmp suffixOrder := inferInstanceAs (Std.TransCmp (orderBy _))

/-- So is finding all records equal. -/
instance : Std.TransCmp indifferent where
  eq_swap := rfl
  isLE_trans _ _ := rfl

end Record

end RecordSort
