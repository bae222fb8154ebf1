/-! # Records and their byte format

A **record** is a byte string that is read, ordered and written as a whole. In a byte stream every
record is followed by one *delimiter* byte; only the last record of a stream may lack it.

* **`segments d xs`** — the pieces of `xs` between the occurrences of `d`; there is always one more
  piece than there are occurrences.
* **`encode d rs`** — the byte string that holds the records `rs`, each followed by `d`.
* **`decode d bs`** — the records that the byte string `bs` holds. `decode_encode` and `encode_decode`
  say that the two are inverse up to a missing last delimiter. -/

namespace RecordSort

universe u

/-- A **byte string**. -/
abbrev Bytes := List UInt8

/-- A **record**: a byte string that is read, ordered and written as a whole. -/
abbrev Record := Bytes

/-- The delimiter used unless another one is set: the line feed. -/
def newline : UInt8 := 10

/-! ## Segments -/

/-- The **segments** of `xs`: the pieces between the occurrences of `d`, empty ones included. -/
def segments {α : Type u} [DecidableEq α] (d : α) : List α → List (List α)
  | [] => [[]]
  | x :: xs => if x = d then [] :: segments d xs else (segments d xs).modifyHead (x :: ·)

section Segments

variable {α : Type u} [DecidableEq α] (d : α)

/-- The empty list has one empty segment. -/
@[simp] theorem segments_nil : segments d [] = [[]] := rfl

/-- A delimiter ends an empty segment. -/
@[simp] theorem segments_cons_self (xs : List α) : segments d (d :: xs) = [] :: segments d xs := by
  simp [segments]

/-- An item that is not the delimiter joins the first segment. -/
theorem segments_cons_of_ne {x : α} (h : x ≠ d) (xs : List α) :
    segments d (x :: xs) = (segments d xs).modifyHead (x :: ·) := by
  simp [segments, h]

/-- There is always a first segment, if only the empty one. -/
theorem segments_ne_nil (xs : List α) : segments d xs ≠ [] := by
  induction xs with
  | nil => simp
  | cons x xs ih =>
    by_cases h : x = d
    · simp [h]
    · simp [segments_cons_of_ne d h, ih]

/-- No segment holds the delimiter. -/
theorem not_mem_of_mem_segments {d : α} {xs piece : List α} (h : piece ∈ segments d xs) : d ∉ piece := by
  induction xs generalizing piece with
  | nil =>
    obtain rfl : piece = [] := by simpa using h
    exact List.not_mem_nil
  | cons x xs ih =>
    by_cases hx : x = d
    · rw [hx, segments_cons_self] at h
      rcases List.mem_cons.1 h with rfl | h
      · exact List.not_mem_nil
      · exact ih h
    -- `x` joins the first of the other segments
    · rw [segments_cons_of_ne d hx] at h
      obtain ⟨first, rest, hsegments⟩ := List.exists_cons_of_ne_nil (segments_ne_nil d xs)
      rw [hsegments] at h ih
      rcases List.mem_cons.1 h with rfl | h
      · rw [List.mem_cons, not_or]
        exact ⟨fun heq => hx heq.symm, ih List.mem_cons_self⟩
      · exact ih (List.mem_cons_of_mem _ h)

/-- A list without the delimiter is its only segment. -/
theorem segments_of_not_mem {d : α} {xs : List α} (h : d ∉ xs) : segments d xs = [xs] := by
  induction xs with
  | nil => rfl
  | cons x xs ih =>
    rw [List.mem_cons, not_or] at h
    rw [segments_cons_of_ne d fun hx => h.1 hx.symm, ih h.2]
    rfl

end Segments

/-! ## Encoding -/

/-- The byte string that holds the records `rs`: each is followed by one delimiter. -/
def encode (d : UInt8) (rs : List Record) : Bytes := rs.flatMap (· ++ [d])

/-- No records are no bytes. -/
@[simp] theorem encode_nil (d : UInt8) : encode d [] = [] := rfl

/-- A record is followed by its delimiter and the other records. -/
@[simp] theorem encode_cons (d : UInt8) (r : Record) (rs : List Record) :
    encode d (r :: rs) = r ++ d :: encode d rs := by
  simp [encode]

/-- The bytes of two rows of records stand one after the other. -/
@[simp] theorem encode_append (d : UInt8) (rs ss : List Record) :
    encode d (rs ++ ss) = encode d rs ++ encode d ss := by
  simp [encode]

/-- **Writing the segments of a value writes the value.** A value and its last delimiter are the
encoding of the value's segments. -/
theorem encode_segments (d : UInt8) (value : Bytes) :
    encode d (segments d value) = value ++ [d] := by
  induction value with
  | nil => simp
  | cons b bs ih =>
    by_cases h : b = d
    · simp [h, ih]
    · rw [segments_cons_of_ne d h]
      cases hs : segments d bs with
      | nil => exact absurd hs (segments_ne_nil d bs)
      | cons r rs => rw [hs] at ih; simp at ih ⊢; exact ih

/-! ## Decoding -/

/-- The records that a byte string holds. A last record without a delimiter counts; nothing follows
a last delimiter. -/
def decode (d : UInt8) : Bytes → List Record
  | [] => []
  | b :: bs =>
    if b = d then [] :: decode d bs
    else match decode d bs with
      | [] => [[b]]
      | r :: rs => (b :: r) :: rs

/-- The **first record** of a byte string and the bytes behind it: the longest piece from the start
that has no delimiter; the delimiter that follows, if any, is dropped. -/
def takeRecord (d : UInt8) (bs : Bytes) : Option (Record × Bytes) :=
  if bs = [] then none
  else some (bs.takeWhile (· ≠ d), (bs.dropWhile (· ≠ d)).drop 1)

/-- No bytes are no records. -/
@[simp] theorem decode_nil (d : UInt8) : decode d [] = [] := rfl

/-- No record can be taken from no bytes. -/
@[simp] theorem takeRecord_nil (d : UInt8) : takeRecord d [] = none := rfl

/-- Only no bytes are no records. -/
theorem decode_eq_nil_iff {d : UInt8} {bs : Bytes} : decode d bs = [] ↔ bs = [] := by
  cases bs with
  | nil => simp
  | cons b bs =>
    simp only [decode]
    split
    · simp
    · split <;> simp

/-- **Decoding record by record.** The records of a byte string are its first record and the
records of what follows it. -/
theorem decode_eq_takeRecord (d : UInt8) (bs : Bytes) :
    decode d bs = match takeRecord d bs with
      | none => []
      | some (r, rest) => r :: decode d rest := by
  induction bs with
  | nil => simp
  | cons b bs ih =>
    by_cases h : b = d
    -- a delimiter ends the empty record at once
    · simp [takeRecord, decode, h]
    -- `b` joins the first record of the rest, and what follows that record stays as it is
    · cases bs with
      | nil => simp [takeRecord, decode, h]
      | cons c cs =>
        simp only [takeRecord, reduceCtorEq, if_false] at ih ⊢
        rw [decode, if_neg h, ih]
        simp [h]

/-- A piece without the delimiter, then the delimiter: the piece is the first record. -/
theorem takeRecord_append {d : UInt8} {r : Record} (h : d ∉ r) (rest : Bytes) :
    takeRecord d (r ++ d :: rest) = some (r, rest) := by
  have hr : ∀ b ∈ r, decide (b ≠ d) = true := by
    intro b hb
    simp only [ne_eq, decide_not, Bool.not_eq_true', decide_eq_false_iff_not]
    rintro rfl
    exact h hb
  rw [takeRecord, if_neg (by simp), List.takeWhile_append_of_pos hr,
    List.dropWhile_append_of_pos hr]
  simp

/-- A byte string without the delimiter is one record. -/
theorem takeRecord_of_not_mem {d : UInt8} {bs : Bytes} (hne : bs ≠ []) (h : d ∉ bs) :
    takeRecord d bs = some (bs, []) := by
  have hall : ∀ b ∈ bs, decide (b ≠ d) = true := by
    intro b hb
    rw [decide_eq_true_iff]
    rintro rfl
    exact h hb
  have htake : (bs ++ []).takeWhile (· ≠ d) = bs ++ [].takeWhile (· ≠ d) :=
    List.takeWhile_append_of_pos hall
  have hdrop : (bs ++ []).dropWhile (· ≠ d) = [].dropWhile (· ≠ d) :=
    List.dropWhile_append_of_pos hall
  rw [List.append_nil] at htake hdrop
  rw [takeRecord, if_neg hne, htake, hdrop]
  simp

/-- No record of a byte string holds the delimiter. -/
theorem not_mem_of_mem_decode {d : UInt8} {bs : Bytes} {r : Record} (h : r ∈ decode d bs) :
    d ∉ r := by
  induction bs generalizing r with
  | nil => simp at h
  | cons b bs ih =>
    rw [decode] at h
    split at h
    · rcases List.mem_cons.1 h with rfl | h
      · exact List.not_mem_nil
      · exact ih h
    · rename_i hb
      split at h
      · rw [List.mem_singleton.1 h, List.mem_singleton]
        exact fun heq => hb heq.symm
      · rename_i r₀ rs hbs
        rw [hbs] at ih
        rcases List.mem_cons.1 h with rfl | h
        · rw [List.mem_cons, not_or]
          exact ⟨fun heq => hb heq.symm, ih List.mem_cons_self⟩
        · exact ih (List.mem_cons_of_mem _ h)

/-- Decoding gives back records that do not hold the delimiter. -/
theorem decode_encode {d : UInt8} {rs : List Record} (h : ∀ r ∈ rs, d ∉ r) :
    decode d (encode d rs) = rs := by
  induction rs with
  | nil => simp
  | cons r rs ih =>
    rw [encode_cons, decode_eq_takeRecord, takeRecord_append (h r (by simp))]
    simp [ih fun s hs => h s (by simp [hs])]

/-- Encoding the records of a byte string gives it back, with a last delimiter added if the string
is not empty and lacks one. -/
theorem encode_decode (d : UInt8) (bs : Bytes) :
    encode d (decode d bs) = if bs = [] ∨ bs.getLast? = some d then bs else bs ++ [d] := by
  induction bs with
  | nil => simp
  | cons b bs ih =>
    by_cases h : b = d
    -- the string starts with a delimiter: the empty record goes before the records of `bs`
    · cases bs with
      | nil => simp [decode, h]
      | cons c cs => simp [decode, h] at ih ⊢; rw [ih]; split <;> simp
    · cases hbs : decode d bs with
      -- `b` is the whole string: one record that lacks its delimiter
      | nil =>
        rw [decode_eq_nil_iff] at hbs
        subst hbs
        simp [decode, h]
      -- `b` joins the first record of `bs`; the end of the string is that of `bs`
      | cons r rs =>
        have hne : bs ≠ [] := fun hn => by simp [hn] at hbs
        obtain ⟨c, cs, rfl⟩ := List.exists_cons_of_ne_nil hne
        rw [decode, if_neg h, hbs]
        rw [hbs] at ih
        simp at ih ⊢
        rw [ih]
        split <;> simp

end RecordSort
