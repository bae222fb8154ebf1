import RecordSort.Chunk.Sorter

/-! # The stable sort of records

Under a total preorder the stable sort of a list of records is in order, and it leaves the records that
are equal to a given one in the order in which they stood. These two properties leave no choice:

* **`eq_of_isSorted`** — two lists in order that agree on every class of equal records are one list.
* **`sortRecords_min`** — the stable sort begins with the first of the least records.
* **`sortRecords_flatMap`** — sorting lists one by one beforehand changes nothing.
* **`IsSort.eq_sortRecords`** — where no two different records are equal, every way to put the records in
  order gives the stable sort. -/

namespace RecordSort

/-- The list is **in order**: no record comes after one behind it. -/
def IsSorted (cmp : Record → Record → Ordering) (rs : List Record) : Prop :=
  rs.Pairwise fun a b => (cmp a b).isLE

/-- The records of a list that a comparison calls equal to `r`, as they stand in the list. -/
def equalTo (cmp : Record → Record → Ordering) (r : Record) (rs : List Record) : List Record :=
  rs.filter fun x => (cmp r x).isEq

/-- A **way to put records in order**: the result is in order and holds the same records. -/
def IsSort (cmp : Record → Record → Ordering) (sort : List Record → List Record) : Prop :=
  ∀ rs, (sort rs).Perm rs ∧ IsSorted cmp (sort rs)

/-- The comparison tells apart any two different records of the list. -/
def NoTies (cmp : Record → Record → Ordering) (rs : List Record) : Prop :=
  ∀ a ∈ rs, ∀ b ∈ rs, cmp a b = .eq → a = b

section Lists

variable {cmp : Record → Record → Ordering} {r : Record} {rs ss : List Record}

/-- No records are sorted. -/
@[simp] theorem isSorted_nil : IsSorted cmp [] := List.Pairwise.nil

/-- Records are sorted if the first one is not above the others, and these are sorted. -/
@[simp] theorem isSorted_cons :
    IsSorted cmp (r :: rs) ↔ (∀ s ∈ rs, (cmp r s).isLE) ∧ IsSorted cmp rs := List.pairwise_cons

/-- Nothing is equal in an empty list. -/
@[simp] theorem equalTo_nil : equalTo cmp r [] = [] := rfl

/-- An equal record is kept. -/
theorem equalTo_cons_of_eq {a : Record} (h : cmp r a = .eq) :
    equalTo cmp r (a :: rs) = a :: equalTo cmp r rs := by
  simp [equalTo, h]

/-- A record that is not equal is left out. -/
theorem equalTo_cons_of_ne {a : Record} (h : cmp r a ≠ .eq) :
    equalTo cmp r (a :: rs) = equalTo cmp r rs := by
  simp [equalTo, h]

/-- The equal records of two lists, one after the other. -/
@[simp] theorem equalTo_append : equalTo cmp r (rs ++ ss) = equalTo cmp r rs ++ equalTo cmp r ss :=
  List.filter_append ..

/-- What is equal stands in the list. -/
theorem mem_equalTo {a : Record} : a ∈ equalTo cmp r rs ↔ a ∈ rs ∧ cmp r a = .eq := by
  simp [equalTo]

/-- Records that hold nothing equal to `r`. -/
theorem equalTo_eq_nil (h : ∀ a ∈ rs, cmp r a ≠ .eq) : equalTo cmp r rs = [] := by
  simpa [equalTo] using h

/-- There are no ties among fewer records. -/
theorem NoTies.mono (h : NoTies cmp rs) (hsub : ∀ a ∈ ss, a ∈ rs) : NoTies cmp ss :=
  fun a ha b hb => h a (hsub a ha) b (hsub b hb)

/-! ### The stable sort holds the records of the list -/

/-- Sorting nothing gives nothing. -/
@[simp] theorem sortRecords_nil : sortRecords cmp [] = [] := by
  simp [sortRecords]

/-- **Sorting** changes the order only. -/
theorem perm_sortRecords (rs : List Record) : (sortRecords cmp rs).Perm rs :=
  List.mergeSort_perm _ _

/-- Sorting keeps the number of records. -/
@[simp] theorem length_sortRecords (rs : List Record) :
    (sortRecords cmp rs).length = rs.length := List.length_mergeSort _

/-- Sorting keeps the records. -/
@[simp] theorem mem_sortRecords : r ∈ sortRecords cmp rs ↔ r ∈ rs := List.mem_mergeSort

/-- A list in order is its own stable sort. -/
theorem sortRecords_of_isSorted (h : IsSorted cmp rs) : sortRecords cmp rs = rs :=
  List.mergeSort_of_pairwise h

end Lists

variable {cmp : Record → Record → Ordering} [Std.TransCmp cmp]

/-- One of two records does not come after the other. -/
theorem isLE_total (a b : Record) : ((cmp a b).isLE || (cmp b a).isLE) = true := by
  have hswap : cmp b a = (cmp a b).swap := Std.OrientedCmp.eq_swap
  rw [hswap]
  cases cmp a b <;> rfl

/-- The stable sort is in order. -/
theorem isSorted_sortRecords (rs : List Record) : IsSorted cmp (sortRecords cmp rs) :=
  List.pairwise_mergeSort (fun _ _ _ => Std.TransCmp.isLE_trans) isLE_total rs

/-- The stable sort is a way to put records in order. -/
theorem isSort_sortRecords : IsSort cmp (sortRecords cmp) :=
  fun rs => ⟨perm_sortRecords rs, isSorted_sortRecords rs⟩

/-- **The sort is stable**: equal records stay in the order in which they stood. -/
theorem equalTo_sortRecords (r : Record) (rs : List Record) :
    equalTo cmp r (sortRecords cmp rs) = equalTo cmp r rs := by
  have hclass : (equalTo cmp r rs).Pairwise fun a b => (cmp a b).isLE := by
    refine List.pairwise_of_forall_mem_list fun a ha b hb => ?_
    have ha := (mem_equalTo.1 ha).2
    have hb := (mem_equalTo.1 hb).2
    exact Ordering.isLE_of_eq_eq (Std.TransCmp.eq_trans (Std.OrientedCmp.eq_symm ha) hb)
  have hsub : (equalTo cmp r rs).Sublist (sortRecords cmp rs) :=
    List.sublist_mergeSort (fun _ _ _ => Std.TransCmp.isLE_trans) isLE_total hclass
      List.filter_sublist
  -- the equal records are a sublist of those of the sort, and there are as many of them
  have hsub' := hsub.filter fun x => (cmp r x).isEq
  rw [equalTo, List.filter_filter] at hsub'
  simp only [Bool.and_self] at hsub'
  exact (hsub'.eq_of_length ((perm_sortRecords rs).symm.filter _).length_eq).symm

/-- **A stable sort is unique**: two lists in order that agree on all classes of equal records are one
list. -/
theorem eq_of_isSorted {xs ys : List Record} (hx : IsSorted cmp xs) (hy : IsSorted cmp ys)
    (h : ∀ r, equalTo cmp r xs = equalTo cmp r ys) : xs = ys := by
  have hself : ∀ a : Record, cmp a a = .eq := fun _ => Std.ReflCmp.compare_self
  induction xs generalizing ys with
  | nil =>
    cases ys with
    | nil => rfl
    | cons y ys => have := h y; simp [equalTo_cons_of_eq (hself y)] at this
  | cons x xs ih =>
    cases ys with
    | nil => have := h x; simp [equalTo_cons_of_eq (hself x)] at this
    | cons y ys =>
      rw [isSorted_cons] at hx hy
      -- each of the first records stands in the other list, so neither comes after the other
      have hxy : cmp x y = .eq := by
        have hxmem : x ∈ equalTo cmp x (y :: ys) := h x ▸ mem_equalTo.2 ⟨by simp, hself x⟩
        have hymem : y ∈ equalTo cmp y (x :: xs) := (h y).symm ▸ mem_equalTo.2 ⟨by simp, hself y⟩
        rcases List.mem_cons.1 (mem_equalTo.1 hxmem).1 with rfl | hxys
        · exact hself x
        rcases List.mem_cons.1 (mem_equalTo.1 hymem).1 with rfl | hyxs
        · exact hself y
        exact Std.OrientedCmp.isLE_antisymm (hx.1 y hyxs) (hy.1 x hxys)
      obtain rfl : x = y := by
        have := h x
        rw [equalTo_cons_of_eq (hself x), equalTo_cons_of_eq hxy] at this
        exact (List.cons.inj this).1
      rw [ih hx.2 hy.2]
      intro r
      have := h r
      by_cases hr : cmp r x = .eq
      · rw [equalTo_cons_of_eq hr, equalTo_cons_of_eq hr] at this
        exact (List.cons.inj this).2
      · rwa [equalTo_cons_of_ne hr, equalTo_cons_of_ne hr] at this

/-- Lists in order that agree on all classes of equal records with `rs` are the stable sort of `rs`. -/
theorem eq_sortRecords {xs rs : List Record} (hx : IsSorted cmp xs)
    (h : ∀ r, equalTo cmp r xs = equalTo cmp r rs) : xs = sortRecords cmp rs :=
  eq_of_isSorted hx (isSorted_sortRecords rs) fun r => (h r).trans (equalTo_sortRecords r rs).symm

/-- Lists that agree on all classes of equal records have one stable sort. -/
theorem sortRecords_congr {rs ss : List Record} (h : ∀ r, equalTo cmp r rs = equalTo cmp r ss) :
    sortRecords cmp rs = sortRecords cmp ss :=
  eq_sortRecords (isSorted_sortRecords rs) fun r => (equalTo_sortRecords r rs).trans (h r)

/-- **The first of the least records leads the stable sort**: it comes before all records in front of it
and not after those behind it. -/
theorem sortRecords_min {r : Record} {before after : List Record}
    (hbefore : ∀ a ∈ before, cmp r a = .lt) (hafter : ∀ a ∈ after, (cmp r a).isLE) :
    sortRecords cmp (before ++ r :: after) = r :: sortRecords cmp (before ++ after) := by
  refine (eq_sortRecords (isSorted_cons.2 ⟨fun a ha => ?_, isSorted_sortRecords _⟩) fun s => ?_).symm
  · rw [mem_sortRecords, List.mem_append] at ha
    rcases ha with ha | ha
    · exact Ordering.isLE_of_eq_lt (hbefore a ha)
    · exact hafter a ha
  · by_cases hs : cmp s r = .eq
    -- the records in front of `r` are not equal to it, so `r` is the first of its class
    · have hnone : equalTo cmp s before = [] := by
        refine equalTo_eq_nil fun a ha h => ?_
        have hlt := hbefore a ha
        rw [Std.TransCmp.congr_left (Std.OrientedCmp.eq_symm hs), h] at hlt
        contradiction
      rw [equalTo_cons_of_eq hs, equalTo_sortRecords, equalTo_append, equalTo_append, hnone,
        equalTo_cons_of_eq hs]
      rfl
    · rw [equalTo_cons_of_ne hs, equalTo_sortRecords, equalTo_append, equalTo_append,
        equalTo_cons_of_ne hs]

/-- Sorting lists one by one does not change the stable sort of them all. -/
theorem sortRecords_flatMap {α : Type} (lists : List α) (records : α → List Record) :
    sortRecords cmp (lists.flatMap fun a => sortRecords cmp (records a)) =
      sortRecords cmp (lists.flatMap records) := by
  refine sortRecords_congr fun r => ?_
  induction lists with
  | nil => rfl
  | cons a rest ih =>
    rw [List.flatMap_cons, List.flatMap_cons, equalTo_append, equalTo_append, equalTo_sortRecords, ih]

/-- In a list in order without ties, equal records are copies of one record: the list is determined by
which records it holds. -/
theorem eq_sortRecords_of_perm {xs rs : List Record} (hx : IsSorted cmp xs) (hperm : xs.Perm rs)
    (hties : NoTies cmp rs) : xs = sortRecords cmp rs := by
  refine eq_sortRecords hx fun r => ?_
  have hclass : (equalTo cmp r xs).Perm (equalTo cmp r rs) := hperm.filter _
  -- all members of a class are one record, and a permutation of copies changes nothing
  cases hrs : equalTo cmp r rs with
  | nil => rw [hrs] at hclass; exact hclass.eq_nil
  | cons a as =>
    have hall : ∀ b ∈ equalTo cmp r rs, b = a := by
      intro b hb
      have ha := mem_equalTo.1 (hrs ▸ List.mem_cons_self : a ∈ equalTo cmp r rs)
      have hb := mem_equalTo.1 hb
      exact hties b hb.1 a ha.1 (Std.TransCmp.eq_trans (Std.OrientedCmp.eq_symm hb.2) ha.2)
    rw [← hrs, List.eq_replicate_of_mem hall, ← hclass.length_eq]
    exact List.eq_replicate_of_mem fun b hb => hall b (hclass.mem_iff.1 hb)

/-- **Where there are no ties, sorting is one thing**: any way to put the records in order gives the
stable sort. -/
theorem IsSort.eq_sortRecords {sort : List Record → List Record} (h : IsSort cmp sort)
    {rs : List Record} (hties : NoTies cmp rs) : sort rs = sortRecords cmp rs :=
  eq_sortRecords_of_perm (h rs).2 (h rs).1 hties

end RecordSort
