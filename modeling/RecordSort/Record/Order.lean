import RecordSort.Record.Format

/-! # Orders on records

A comparison of records is a function `Record → Record → Ordering`; it may call two different records
equal. This file defines the byte order, which is the one used unless another is asked for, and orders
derived from it by a key. -/

namespace RecordSort.Record

/-- The **byte order**: the first differing byte decides, and a record comes before its extensions. -/
def byteOrder : Record → Record → Ordering
  | [], [] => .eq
  | [], _ :: _ => .lt
  | _ :: _, [] => .gt
  | a :: as, b :: bs => (compare a b).then (byteOrder as bs)

/-- The byte order of the keys of two records. -/
def orderBy (key : Record → Record) (a b : Record) : Ordering := byteOrder (key a) (key b)

/-- The byte order backwards. -/
def descending (a b : Record) : Ordering := byteOrder b a

/-- Only the first byte counts; the empty record comes before all others. -/
def firstByteOrder : Record → Record → Ordering := orderBy (·.take 1)

/-- Only the length counts. -/
def lengthOrder (a b : Record) : Ordering := compare a.length b.length

/-- Shorter records first, and among records of one length the byte order. -/
def shortlex (a b : Record) : Ordering := (lengthOrder a b).then (byteOrder a b)

/-- The byte with an ASCII capital letter made small. -/
def lowercase (b : UInt8) : UInt8 := if 65 ≤ b ∧ b ≤ 90 then b + 32 else b

/-- The byte order where ASCII letters count alike in either case. -/
def caseless : Record → Record → Ordering := orderBy (·.map lowercase)

/-- The byte order of the records read from their last byte to their first. -/
def suffixOrder : Record → Record → Ordering := orderBy List.reverse

/-- All records are equal. -/
def indifferent (_ _ : Record) : Ordering := .eq

/-- A record is equal to itself. -/
@[simp] theorem byteOrder_self (a : Record) : byteOrder a a = .eq := by
  induction a with
  | nil => rfl
  | cons b bs ih => simp [byteOrder, ih]

/-- Two records that the byte order calls equal are one record. -/
theorem eq_of_byteOrder_eq {a b : Record} (h : byteOrder a b = .eq) : a = b := by
  induction a generalizing b with
  | nil => cases b <;> simp [byteOrder] at h ⊢
  | cons x xs ih =>
    cases b with
    | nil => simp [byteOrder] at h
    | cons y ys =>
      simp [byteOrder, Ordering.then_eq_eq] at h
      rw [h.1, ih h.2]

end RecordSort.Record
