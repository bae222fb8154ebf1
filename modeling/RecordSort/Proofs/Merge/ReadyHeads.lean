import RecordSort.Merge.Merger
import RecordSort.Merge.Scan
import RecordSort.Proofs.Record.TotalPreorder

/-! # The heads of lanes

The records that lanes hold ready are the heads of a merge. Scanning the lanes finds the least of them.

* **`readyFrom`** — the records held ready, as heads; there is at most one of each lane.
* **`perm_readyFrom_set`** — what becomes of them when a lane changes.
* **`mem_of_least`**, **`isLE_of_least`** — scanning finds a head that is ready, and no other one comes
  before it. -/

namespace RecordSort

/-- Heads are compared by a total preorder if records are. -/
instance transCmp_head_order (cmp : Record → Record → Ordering) [Std.TransCmp cmp] :
    Std.TransCmp (Head.order cmp) :=
  haveI : Std.TransCmp fun a b : Head => cmp a.record b.record := transCmp_comap cmp Head.record
  haveI : Std.TransCmp fun a b : Head => compare a.feed b.feed := transCmp_comap compare Head.feed
  transCmp_then _ _

/-- Heads that are equal in their order come from one feed. -/
theorem Head.feed_eq_of_order_eq {cmp : Record → Record → Ordering} {a b : Head}
    (h : Head.order cmp a b = .eq) : a.feed = b.feed := by
  rw [Head.order, Ordering.then_eq_eq] at h
  exact Std.LawfulEqCmp.eq_of_compare h.2

namespace ScanMerger

variable {φ : Type}

/-! ## The records held ready -/

/-- The record that a lane holds ready, with the number of the lane. -/
def headOf (i : Nat) (lane : Lane φ) : Option Head := lane.head.map (⟨·, i⟩)

/-- The **records held ready** by lanes, where `index` is the number of the first lane. -/
def readyFrom (index : Nat) : List (Lane φ) → List Head
  | [] => []
  | lane :: rest => (headOf index lane).toList ++ readyFrom (index + 1) rest

/-- The head of a lane is its record with the number of the lane. -/
theorem mem_headOf {i : Nat} {lane : Lane φ} {h : Head} :
    h ∈ (headOf i lane).toList ↔ h.feed = i ∧ lane.head = some h.record := by
  rcases h with ⟨r, k⟩
  cases hl : lane.head <;> simp [headOf, hl, and_comm, eq_comm]

/-- A head is ready exactly if its lane holds its record. -/
theorem mem_readyFrom {index : Nat} {lanes : List (Lane φ)} {h : Head} :
    h ∈ readyFrom index lanes ↔
      ∃ i lane, h.feed = index + i ∧ lanes[i]? = some lane ∧ lane.head = some h.record := by
  induction lanes generalizing index with
  | nil => simp [readyFrom]
  | cons lane rest ih =>
    rw [readyFrom, List.mem_append, mem_headOf, ih]
    constructor
    · rintro (⟨hf, hh⟩ | ⟨i, lane', hf, hget, hh⟩)
      · exact ⟨0, lane, by omega, rfl, hh⟩
      · exact ⟨i + 1, lane', by omega, by simpa using hget, hh⟩
    · rintro ⟨i, lane', hf, hget, hh⟩
      cases i with
      | zero =>
        obtain rfl : lane = lane' := by simpa using hget
        exact Or.inl ⟨by omega, hh⟩
      | succ i => exact Or.inr ⟨i, lane', by omega, by simpa using hget, hh⟩

/-- There is at most one head of each lane. -/
theorem eq_of_mem_readyFrom {index : Nat} {lanes : List (Lane φ)} {a b : Head}
    (ha : a ∈ readyFrom index lanes) (hb : b ∈ readyFrom index lanes) (h : a.feed = b.feed) :
    a = b := by
  obtain ⟨i, lane, hfa, hga, hha⟩ := mem_readyFrom.1 ha
  obtain ⟨j, lane', hfb, hgb, hhb⟩ := mem_readyFrom.1 hb
  obtain rfl : i = j := by omega
  rw [hga, Option.some.injEq] at hgb
  rw [hgb, hhb, Option.some.injEq] at hha
  rcases a with ⟨r, k⟩
  rcases b with ⟨s, l⟩
  simp_all

/-- Nothing is ready if no lane holds a record. -/
theorem readyFrom_eq_nil {index : Nat} {lanes : List (Lane φ)}
    (h : ∀ lane ∈ lanes, lane.head = none) : readyFrom index lanes = [] := by
  induction lanes generalizing index with
  | nil => rfl
  | cons lane rest ih =>
    rw [readyFrom, ih fun l hl => h l (List.mem_cons_of_mem _ hl)]
    simp [headOf, h lane]

/-- Putting another lane in the place of one exchanges their heads. -/
theorem perm_readyFrom_set {index i : Nat} {lanes : List (Lane φ)} {lane : Lane φ}
    (h : lanes[i]? = some lane) (lane' : Lane φ) :
    ((headOf (index + i) lane').toList ++ readyFrom index lanes).Perm
      ((headOf (index + i) lane).toList ++ readyFrom index (lanes.set i lane')) := by
  induction lanes generalizing index i with
  | nil => simp at h
  | cons first rest ih =>
    cases i with
    | zero =>
      obtain rfl : first = lane := by simpa using h
      exact List.perm_append_comm_assoc _ _ _
    | succ i =>
      have hrest := @ih (index + 1) i (by simpa using h)
      rw [show index + 1 + i = index + (i + 1) by omega] at hrest
      rw [List.set_cons_succ, readyFrom, readyFrom]
      refine (List.perm_append_comm_assoc _ _ _).trans ?_
      exact (hrest.append_left _).trans (List.perm_append_comm_assoc _ _ _)

/-! ## The least head -/

section Least

variable {order : Record → Record → Ordering}

/-- Scanning finds nothing exactly if nothing is ready. -/
theorem least_eq_none_iff {index : Nat} {lanes : List (Lane φ)} :
    least order index lanes = none ↔ readyFrom index lanes = [] := by
  induction lanes generalizing index with
  | nil => simp [least, readyFrom]
  | cons lane rest ih =>
    rw [least, readyFrom]
    cases hl : lane.head with
    | none => simp [headOf, hl, ih]
    | some r =>
      rcases least order (index + 1) rest with _ | ⟨s, i⟩
      · simp [headOf, hl]
      · by_cases hs : order s r = .lt <;> simp [headOf, hl, hs]

/-- What scanning finds is ready. -/
theorem mem_of_least {index : Nat} {lanes : List (Lane φ)} {r : Record} {i : Nat}
    (h : least order index lanes = some (r, i)) : ⟨r, i⟩ ∈ readyFrom index lanes := by
  induction lanes generalizing index with
  | nil => simp [least] at h
  | cons lane rest ih =>
    rw [least] at h
    rw [readyFrom, List.mem_append, mem_headOf]
    split at h
    · exact Or.inr (ih h)
    · rename_i hl _
      simp only [Option.some.injEq, Prod.mk.injEq] at h
      exact Or.inl ⟨h.2.symm, by rw [hl, h.1]⟩
    · rename_i hl hrest
      split at h <;> simp only [Option.some.injEq, Prod.mk.injEq] at h
      · exact Or.inr (ih (by rw [hrest, h.1, h.2]))
      · exact Or.inl ⟨h.2.symm, by rw [hl, h.1]⟩

/-- **What scanning finds is least**, and of equal records it is the one of the first lane. -/
theorem isLE_of_least [Std.TransCmp order] {index : Nat} {lanes : List (Lane φ)} {r : Record}
    {i : Nat} (h : least order index lanes = some (r, i)) {a : Head}
    (ha : a ∈ readyFrom index lanes) : (Head.order order ⟨r, i⟩ a).isLE := by
  induction lanes generalizing index r i with
  | nil => simp [least] at h
  | cons lane rest ih =>
    have hself : ∀ b : Head, (Head.order order b b).isLE := fun b => by
      simp [Std.ReflCmp.compare_self]
    have hfirst : ∀ s, lane.head = some s → ∀ b ∈ (headOf index lane).toList,
        b = ⟨s, index⟩ := by
      intro s hs b hb
      obtain ⟨hf, hh⟩ := mem_headOf.1 hb
      rcases b with ⟨t, k⟩
      rw [hs] at hh
      simp_all
    rw [least] at h
    rw [readyFrom, List.mem_append] at ha
    split at h
    -- the first lane holds nothing
    · rename_i hl
      rcases ha with ha | ha
      · simp [headOf, hl] at ha
      · exact ih h ha
    -- only the first lane holds a record
    · rename_i s hl hrest
      simp only [Option.some.injEq, Prod.mk.injEq] at h
      obtain ⟨rfl, rfl⟩ := h
      rw [least_eq_none_iff.1 hrest] at ha
      rcases ha with ha | ha
      · rw [hfirst _ hl a ha]; exact hself _
      · simp at ha
    · rename_i s t j hl hrest
      have hlater := ih hrest
      split at h <;> rename_i hts <;> simp only [Option.some.injEq, Prod.mk.injEq] at h <;>
        obtain ⟨rfl, rfl⟩ := h
      -- the least of the later records comes before the first one
      · rcases ha with ha | ha
        · rw [hfirst _ hl a ha, Head.order, hts]; rfl
        · exact hlater ha
      -- it does not, so the first record wins, also against a later one that is equal
      · rcases ha with ha | ha
        · rw [hfirst _ hl a ha]; exact hself _
        · have hle : (order s t).isLE :=
            Std.OrientedCmp.isLE_of_isGE (Ordering.isGE_iff_ne_lt.2 hts)
          have hj := mem_readyFrom.1 (mem_of_least hrest)
          obtain ⟨k, -, hk, -⟩ := hj
          have hlt : compare index j = .lt := Nat.compare_eq_lt.2 (by simp only at hk; omega)
          refine Std.TransCmp.isLE_trans (b := ⟨t, j⟩) ?_ (hlater ha)
          rw [Head.order, Ordering.isLE_then_iff_and]
          exact ⟨hle, Or.inr (by simp [hlt])⟩

end Least

end ScanMerger

end RecordSort
