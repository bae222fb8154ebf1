import RecordSort.Record.Reader

/-! # Feeds of records

A **feed** is anything that can be asked for the next record: it answers with a record, with the news
that there is none, or with an error, and goes on to a new state. A feed may answer with records after
an error or after the news that there was none. It is *finite* if a `weight` bounds how many it has
left in all.

* **`RecordReader`** feeds the records of a byte source.
* **`Replay`** feeds answers laid down in advance.
* **`φ ⊕ ψ`** is a feed of either kind, and **`Counted φ`** counts how often it was asked.
* **`RecordFeed.answers`** are the answers to a number of questions, and **`RecordFeed.after`** is the feed
  after them.
* **`drain`** asks a finite feed until it has no record or fails. -/

namespace RecordSort

universe u v

/-- What a feed answers when it is asked for a record. -/
abbrev RecordAnswer := Except StreamError (Option Record)

/-- A **feed of records** with states `φ`. -/
class RecordFeed (φ : Type u) where
  /-- Asks for the next record. -/
  next : φ → RecordAnswer × φ

/-- The answers of a feed to the next `n` questions. -/
def RecordFeed.answers {φ : Type u} [RecordFeed φ] (f : φ) : Nat → List RecordAnswer
  | 0 => []
  | n + 1 => (next f).1 :: answers (next f).2 n

/-- A feed **after `n` questions**. -/
def RecordFeed.after {φ : Type u} [RecordFeed φ] (f : φ) : Nat → φ
  | 0 => f
  | n + 1 => after (next f).2 n

/-- The record of an answer, if it is one. -/
def recordOf : RecordAnswer → Option Record
  | .ok r => r
  | .error _ => none

section Questions

variable {φ : Type u} [RecordFeed φ]

/-- There are as many answers as calls. -/
@[simp] theorem RecordFeed.length_answers (f : φ) (n : Nat) : (answers f n).length = n := by
  induction n generalizing f with
  | zero => rfl
  | succ n ih => rw [answers, List.length_cons, ih]

/-- Questions may be asked in two parts. -/
theorem RecordFeed.after_add (f : φ) (m n : Nat) : after f (m + n) = after (after f m) n := by
  induction m generalizing f with
  | zero => rw [Nat.zero_add, after]
  | succ m ih => rw [Nat.succ_add, after, after, ih]

/-- Questions may be asked in two parts. -/
theorem RecordFeed.answers_add (f : φ) (m n : Nat) :
    answers f (m + n) = answers f m ++ answers (after f m) n := by
  induction m generalizing f with
  | zero => rw [Nat.zero_add, answers, after, List.nil_append]
  | succ m ih => rw [Nat.succ_add, answers, answers, after, ih, List.cons_append]

end Questions

/-- A **finite feed**: its records and errors come to an end. -/
class FiniteFeed (φ : Type u) [RecordFeed φ] where
  /-- Bounds the records and errors that are still to come. -/
  weight : φ → Nat
  /-- Asking does not raise the weight. -/
  weight_next_le : ∀ f, weight (RecordFeed.next f).2 ≤ weight f
  /-- A record or an error lowers the weight. -/
  weight_next_lt : ∀ f, (RecordFeed.next f).1 ≠ .ok none → weight (RecordFeed.next f).2 < weight f

/-- A reader hands out its records. -/
instance : RecordFeed RecordReader where
  next := RecordReader.next

/-- A reader has finitely many records. -/
instance : FiniteFeed RecordReader where
  weight := RecordReader.weight
  weight_next_le := RecordReader.weight_next_le
  weight_next_lt := fun _ => RecordReader.weight_next_lt

/-! ## Answers laid down in advance -/

/-- A feed that gives the answers of a list in order, and then has no more records. -/
structure Replay where
  /-- The answers still to be given. -/
  answers : List RecordAnswer

namespace Replay

/-- The next answer of the list. -/
def next (f : Replay) : RecordAnswer × Replay :=
  match f.answers with
  | [] => (.ok none, f)
  | a :: rest => (a, ⟨rest⟩)

/-- The feed of the records `rs` and nothing else. -/
def ofRecords (rs : List Record) : Replay := ⟨rs.map fun r => .ok (some r)⟩

/-- A list that is used up has no record. -/
@[simp] theorem next_nil : next ⟨[]⟩ = (.ok none, ⟨[]⟩) := rfl

/-- The answers of a list come one after the other. -/
@[simp] theorem next_cons (a : RecordAnswer) (rest : List RecordAnswer) :
    next ⟨a :: rest⟩ = (a, ⟨rest⟩) := rfl

/-- A list of answers hands them out. -/
instance : RecordFeed Replay where
  next := next

/-- A list of answers is finite. -/
instance : FiniteFeed Replay where
  weight f := f.answers.length
  weight_next_le := by rintro ⟨_ | ⟨a, rest⟩⟩ <;> simp [RecordFeed.next]
  weight_next_lt := by rintro ⟨_ | ⟨a, rest⟩⟩ <;> simp [RecordFeed.next]

/-- A feed without records answers that there is none. -/
theorem answers_ofRecords_nil (n : Nat) :
    RecordFeed.answers (ofRecords []) n = List.replicate n (.ok none) := by
  induction n with
  | zero => rfl
  | succ n ih =>
    rw [RecordFeed.answers, List.replicate_succ, ← ih]
    rfl

end Replay

/-! ## Feeds made of feeds -/

section Sum

variable {φ : Type u} {ψ : Type v} [RecordFeed φ] [RecordFeed ψ]

/-- The next record of a feed that is of one of two kinds. -/
def nextOfEither : φ ⊕ ψ → RecordAnswer × (φ ⊕ ψ)
  | .inl f => ((RecordFeed.next f).1, .inl (RecordFeed.next f).2)
  | .inr g => ((RecordFeed.next g).1, .inr (RecordFeed.next g).2)

/-- Either of two feeds is a feed. -/
instance : RecordFeed (φ ⊕ ψ) where
  next := nextOfEither

/-- Either of two finite feeds is finite. -/
instance [FiniteFeed φ] [FiniteFeed ψ] : FiniteFeed (φ ⊕ ψ) where
  weight := Sum.elim FiniteFeed.weight FiniteFeed.weight
  weight_next_le := by
    rintro (f | g)
    · exact FiniteFeed.weight_next_le f
    · exact FiniteFeed.weight_next_le g
  weight_next_lt := by
    rintro (f | g)
    · exact FiniteFeed.weight_next_lt f
    · exact FiniteFeed.weight_next_lt g

end Sum

/-- A feed that **counts** how often it was asked for a record. -/
structure Counted (φ : Type u) where
  /-- The feed that answers. -/
  feed : φ
  /-- How often it was asked. -/
  asked : Nat := 0

/-- A counted feed hands out what the feed does. -/
instance {φ : Type u} [RecordFeed φ] : RecordFeed (Counted φ) where
  next f := ((RecordFeed.next f.feed).1, ⟨(RecordFeed.next f.feed).2, f.asked + 1⟩)

/-- A counted feed is finite if the feed is. -/
instance {φ : Type u} [RecordFeed φ] [FiniteFeed φ] : FiniteFeed (Counted φ) where
  weight f := FiniteFeed.weight f.feed
  weight_next_le f := FiniteFeed.weight_next_le f.feed
  weight_next_lt f := FiniteFeed.weight_next_lt f.feed

/-! ## Draining a feed -/

section Drain

variable {φ : Type u} [RecordFeed φ]

/-- What came out of a feed that was asked until it had no record or failed. -/
structure Drained (φ : Type u) where
  /-- The records, in the order they came. -/
  records : List Record
  /-- How it ended: with no more records, or with an error. -/
  outcome : Except StreamError Unit
  /-- The feed afterwards. -/
  feed : φ

/-- Asks a feed for records **until it has none or fails**. -/
def drain [FiniteFeed φ] (f : φ) : Drained φ :=
  match _h : RecordFeed.next f with
  | (.ok (some r), f') => let rest := drain f'; { rest with records := r :: rest.records }
  | (.ok none, f') => ⟨[], .ok (), f'⟩
  | (.error e, f') => ⟨[], .error e, f'⟩
termination_by FiniteFeed.weight f
decreasing_by
  have hlt := FiniteFeed.weight_next_lt f (by rw [_h]; simp)
  rwa [_h] at hlt

variable [FiniteFeed φ]

/-- A record that is handed out comes before the others. -/
theorem drain_of_record {f f' : φ} {r : Record} (h : RecordFeed.next f = (.ok (some r), f')) :
    drain f = { drain f' with records := r :: (drain f').records } := by
  rw [drain]
  split <;> simp_all

/-- Without a record draining has ended. -/
theorem drain_of_none {f f' : φ} (h : RecordFeed.next f = (.ok none, f')) :
    drain f = ⟨[], .ok (), f'⟩ := by
  rw [drain]
  split <;> simp_all

/-- An error ends draining. -/
theorem drain_of_error {f f' : φ} {e : StreamError} (h : RecordFeed.next f = (.error e, f')) :
    drain f = ⟨[], .error e, f'⟩ := by
  rw [drain]
  split <;> simp_all

/-- Draining a feed of records laid down in advance gives these records. -/
theorem drain_ofRecords (rs : List Record) :
    drain (Replay.ofRecords rs) = ⟨rs, .ok (), ⟨[]⟩⟩ := by
  induction rs with
  | nil => exact drain_of_none rfl
  | cons r rs ih =>
    have h : RecordFeed.next (Replay.ofRecords (r :: rs)) =
        (.ok (some r), Replay.ofRecords rs) := rfl
    rw [drain_of_record h, ih]

end Drain

end RecordSort
