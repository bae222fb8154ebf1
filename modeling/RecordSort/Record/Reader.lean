import RecordSort.Stream.Source

/-! # Reading records from a byte source

A **record reader** cuts the bytes of a source into records. It asks the source for a fixed number of
bytes whenever the bytes it holds contain no delimiter, so a record may be spread over any number of
transfers. Bytes behind the last delimiter are one last record.

* **`RecordReader.next`** — the next record, or none at the end. An error of the source ends the call
  and loses nothing: the next call goes on where this one stopped.
* **`RecordReader.step`** — one round of the search for a delimiter: either it decides the answer, or
  it asks the source for more and says from where on to search. `next` repeats it.
* **`RecordReader.weight`** — bounds the records and errors that are still to come. -/

namespace RecordSort

/-- The capacity of a reader unless another one is set. -/
def defaultCapacity : Nat := 8192

/-- A reader of records and the bytes it holds. -/
structure RecordReader where
  /-- Where the bytes come from. -/
  source : ByteSource
  /-- The number of bytes to ask for at a time; one byte is asked for if it is 0. -/
  capacity : Nat := defaultCapacity
  /-- The byte that ends a record. -/
  delimiter : UInt8 := newline
  /-- Bytes handed out by the source. -/
  buffer : Array UInt8 := #[]
  /-- Where in the buffer the next record starts. -/
  position : Nat := 0
  /-- Whether the source has answered that it is at its end. -/
  ended : Bool := false

/-- The first index from `i` on at which the array holds `b`. -/
def indexFrom (bytes : Array UInt8) (b : UInt8) (i : Nat) : Option Nat :=
  if h : i < bytes.size then
    if bytes[i] = b then some i else indexFrom bytes b (i + 1)
  else none
termination_by bytes.size - i

/-- The search answers with an index in range, not before its start, at which the byte stands. -/
theorem indexFrom_eq_some {bytes : Array UInt8} {b : UInt8} {i k : Nat}
    (h : indexFrom bytes b i = some k) : i ≤ k ∧ bytes[k]? = some b := by
  fun_induction indexFrom bytes b i with
  | case1 i hi hb =>
    simp only [Option.some.injEq] at h
    subst h
    exact ⟨Nat.le_refl i, by simp [hi, hb]⟩
  | case2 i hi hb ih =>
    obtain ⟨hle, hk⟩ := ih h
    exact ⟨by omega, hk⟩
  | case3 i hi => simp at h

/-- The search fails when the byte stands nowhere from its start on. -/
theorem indexFrom_eq_none {bytes : Array UInt8} {b : UInt8} {i : Nat}
    (h : indexFrom bytes b i = none) : ∀ k, i ≤ k → bytes[k]? ≠ some b := by
  fun_induction indexFrom bytes b i with
  | case1 i hi hb => simp at h
  | case2 i hi hb ih =>
    intro k hk
    rcases Nat.lt_or_ge i k with hlt | hge
    · exact ih h k hlt
    · obtain rfl : k = i := by omega
      simp [hi, hb]
  | case3 i hi =>
    intro k hk
    rw [Array.getElem?_eq_none (by omega)]
    simp

namespace RecordReader

/-- The number of bytes that the reader asks for at a time. -/
def refill (r : RecordReader) : Nat := max r.capacity 1

/-- The bytes held and not yet handed on as part of a record. -/
def pending (r : RecordReader) : Bytes := r.buffer.toList.drop r.position

/-- Whether the source is at its end and every byte of it has been handed on. -/
def isExhausted (r : RecordReader) : Bool := r.ended && decide (r.buffer.size ≤ r.position)

/-- Drops the bytes before the position, so that the buffer starts with what is pending. -/
def compact (r : RecordReader) : RecordReader :=
  if r.position = 0 then r
  else { r with buffer := r.buffer.extract r.position r.buffer.size, position := 0 }

/-- Takes in what the source answered: bytes are added to the buffer, being handed nothing is the
end, and an error leaves the buffer as it is. -/
def receive :
    Except StreamError Bytes × ByteSource → RecordReader → Except StreamError Unit × RecordReader
  | (.ok [], source), r => (.ok (), { r with source := source, ended := true })
  | (.ok (b :: bs), source), r =>
    (.ok (), { r with source := source, buffer := r.buffer ++ (b :: bs) })
  | (.error e, source), r => (.error e, { r with source := source })

/-- One **refill**: the pending bytes move to the front of the buffer, and what the source hands out
is added behind them. -/
def fill (r : RecordReader) : Except StreamError Unit × RecordReader :=
  receive (r.source.readPatiently r.refill) r.compact

/-- What one round of the search for a delimiter leads to. -/
inductive Progress
  /-- The call is answered. -/
  | done (answer : Except StreamError (Option Record)) (reader : RecordReader)
  /-- There are more bytes; none of those before `scanned` is the delimiter. -/
  | more (reader : RecordReader) (scanned : Nat)

/-- After a refill the search goes on at `scanned`; an error ends it. -/
def Progress.afterFill (scanned : Nat) : Except StreamError Unit × RecordReader → Progress
  | (.ok (), r) => .more r scanned
  | (.error e, r) => .done (.error e) r

/-- **One round of the search.** No byte from the position to `scanned` is the delimiter. If one
follows in the buffer, it ends the record; if not, either all pending bytes are the last record, or
the source is asked for more and the search goes on behind what was pending. -/
def step (r : RecordReader) (scanned : Nat) : Progress :=
  match indexFrom r.buffer r.delimiter scanned with
  | some stop =>
    .done (.ok (some (r.buffer.extract r.position stop).toList)) { r with position := stop + 1 }
  | none =>
    if r.ended then
      if r.buffer.size ≤ r.position then .done (.ok none) r
      else .done (.ok (some (r.buffer.extract r.position r.buffer.size).toList))
        { r with position := r.buffer.size }
    else .afterFill (r.buffer.size - r.position) r.fill

/-- A round **goes on** only behind a refill: no delimiter follows, and the source is not at its end. -/
theorem step_eq_more {r r' : RecordReader} {i j : Nat} (h : r.step i = .more r' j) :
    indexFrom r.buffer r.delimiter i = none ∧ r.ended = false ∧ r.fill = (.ok (), r') ∧
      j = r.buffer.size - r.position := by
  unfold step at h
  split at h
  · simp at h
  rename_i hnone
  split at h
  · split at h <;> simp at h
  rename_i hended
  rcases hfill : r.fill with ⟨_ | _, r₁⟩ <;>
    simp only [hfill, Progress.afterFill, reduceCtorEq, Progress.more.injEq] at h
  obtain ⟨rfl, rfl⟩ := h
  exact ⟨hnone, by simpa using hended, rfl, rfl⟩

/-- **A round that decides the answer** has found a delimiter; or the source is at its end, and there is no
pending byte or the pending ones are the last record; or the source has failed. -/
theorem step_eq_done {r r' : RecordReader} {i : Nat} {answer : Except StreamError (Option Record)}
    (h : r.step i = .done answer r') :
    (∃ stop, indexFrom r.buffer r.delimiter i = some stop ∧
        answer = .ok (some (r.buffer.extract r.position stop).toList) ∧
        r' = { r with position := stop + 1 }) ∨
      indexFrom r.buffer r.delimiter i = none ∧
        (r.ended = true ∧ r.buffer.size ≤ r.position ∧ answer = .ok none ∧ r' = r ∨
          r.ended = true ∧ r.position < r.buffer.size ∧
            answer = .ok (some (r.buffer.extract r.position r.buffer.size).toList) ∧
            r' = { r with position := r.buffer.size } ∨
          r.ended = false ∧ ∃ e, answer = .error e ∧ r.fill = (.error e, r')) := by
  unfold step at h
  split at h
  · rename_i stop hstop
    obtain ⟨rfl, rfl⟩ := Progress.done.inj h
    exact Or.inl ⟨stop, hstop, rfl, rfl⟩
  rename_i hnone
  refine Or.inr ⟨hnone, ?_⟩
  split at h
  · rename_i hended
    split at h <;> obtain ⟨rfl, rfl⟩ := Progress.done.inj h
    · exact Or.inl ⟨hended, by assumption, rfl, rfl⟩
    · exact Or.inr (Or.inl ⟨hended, by omega, rfl, rfl⟩)
  · rename_i hended
    rcases hfill : r.fill with ⟨e | _, r₁⟩ <;>
      simp only [hfill, Progress.afterFill, reduceCtorEq, Progress.done.injEq] at h
    obtain ⟨rfl, rfl⟩ := h
    exact Or.inr (Or.inr ⟨by simpa using hended, e, rfl, rfl⟩)

/-! ### What a refill does to the bytes that are still to come -/

/-- Moving bytes does not end the source. -/
@[simp] theorem ended_compact (r : RecordReader) : r.compact.ended = r.ended := by
  unfold compact; split <;> rfl

/-- After a move the first byte stands at the start. -/
@[simp] theorem position_compact (r : RecordReader) : r.compact.position = 0 := by
  unfold compact; split <;> simp_all

/-- Moving bytes keeps those that are pending. -/
@[simp] theorem pending_compact (r : RecordReader) : r.compact.pending = r.pending := by
  unfold compact pending
  split
  · rfl
  · simp [List.take_of_length_le]

/-- As many bytes are pending as stand behind the position. -/
@[simp] theorem length_pending (r : RecordReader) :
    r.pending.length = r.buffer.size - r.position := by
  simp [pending]

/-- The buffer of a compacted reader is what is pending. -/
theorem buffer_compact (r : RecordReader) : r.compact.buffer.toList = r.pending := by
  rw [← pending_compact, pending, position_compact, List.drop_zero]

/-- A refill moves bytes from the source to the buffer and loses none; it uses up a byte unless it
finds the source at its end. -/
theorem fill_ok {r r' : RecordReader} (h : r.fill = (.ok (), r')) :
    r'.pending ++ r'.source.data = r.pending ++ r.source.data ∧ r'.position = 0 ∧
      r'.source.plan.length ≤ r.source.plan.length ∧
      (r'.ended = true ∧ r'.source.data.length = r.source.data.length ∨
        r'.ended = r.ended ∧ r'.source.data.length < r.source.data.length) := by
  rcases hread : r.source.readPatiently r.refill with ⟨e | bs, source⟩
  · simp [fill, receive, hread] at h
  · obtain ⟨hd, -, hp⟩ := ByteSource.readPatiently_ok hread
    cases bs with
    -- an answer of nothing: the bytes stay where they are and the end is noted
    | nil =>
      simp only [fill, receive, hread, Prod.mk.injEq, true_and] at h
      subst h
      simp [pending, buffer_compact, hd, hp]
    -- bytes move from the front of the source to the back of the buffer
    | cons b bs =>
      simp only [fill, receive, hread, Prod.mk.injEq, true_and] at h
      subst h
      refine ⟨by simp [pending, buffer_compact, hd], by simp, hp, Or.inr ⟨by simp, ?_⟩⟩
      show source.data.length < r.source.data.length
      rw [hd, List.length_append, List.length_cons]
      omega

/-- A refill that fails has used up some of the source's plan and no byte. -/
theorem fill_error {r r' : RecordReader} {e : StreamError} (h : r.fill = (.error e, r')) :
    r'.pending ++ r'.source.data = r.pending ++ r.source.data ∧
      r'.source.plan.length < r.source.plan.length := by
  rcases hread : r.source.readPatiently r.refill with ⟨e' | bs, source⟩
  · obtain ⟨hp, hd⟩ := ByteSource.readPatiently_error hread
    simp only [fill, receive, hread, Prod.mk.injEq] at h
    obtain ⟨-, rfl⟩ := h
    simp [pending, buffer_compact, hd, hp]
  · cases bs <;> simp [fill, receive, hread] at h

/-! ### Reading the next record -/

/-- Bounds the rounds that a search can still take: entries of the source's plan, its bytes, and one
round that finds it at its end. -/
def rounds (r : RecordReader) : Nat :=
  r.source.plan.length + r.source.data.length + (if r.ended then 0 else 1)

/-- Every round that goes on leaves fewer rounds to take. -/
theorem rounds_lt_of_step {r r' : RecordReader} {i j : Nat} (h : r.step i = .more r' j) :
    r'.rounds < r.rounds := by
  obtain ⟨-, hended, hfill, -⟩ := step_eq_more h
  -- either the source has now ended, or it has handed out a byte
  obtain ⟨-, -, hp, he | he⟩ := fill_ok hfill <;> simp [rounds, hended, he.1] <;> omega

/-- Repeats `step` until it is done. -/
def search (r : RecordReader) (scanned : Nat) : Except StreamError (Option Record) × RecordReader :=
  match _h : r.step scanned with
  | .done answer r' => (answer, r')
  | .more r' scanned' => r'.search scanned'
termination_by r.rounds
decreasing_by exact rounds_lt_of_step _h

/-- The **next record**, or none at the end. -/
def next (r : RecordReader) : Except StreamError (Option Record) × RecordReader :=
  r.search r.position

/-- Bounds the records and errors that are still to come: entries of the source's plan, its bytes, and
the bytes pending. -/
def weight (r : RecordReader) : Nat :=
  r.source.plan.length + (r.pending ++ r.source.data).length

/-- A round that goes on does not raise the weight. -/
theorem weight_le_of_step {r r' : RecordReader} {i j : Nat} (h : r.step i = .more r' j) :
    r'.weight ≤ r.weight ∧ r'.position = 0 := by
  obtain ⟨-, -, hfill, -⟩ := step_eq_more h
  obtain ⟨hb, h0, hp, -⟩ := fill_ok hfill
  exact ⟨by simp only [weight, hb]; omega, h0⟩

/-- A round that decides the answer lowers the weight, unless it finds the end. -/
theorem weight_of_step_done {r r' : RecordReader} {i : Nat} (hi : r.position ≤ i)
    {answer : Except StreamError (Option Record)} (h : r.step i = .done answer r') :
    r'.weight < r.weight ∨ answer = .ok none ∧ r' = r := by
  rcases step_eq_done h with ⟨stop, hstop, -, rfl⟩ |
    ⟨-, ⟨-, -, rfl, rfl⟩ | ⟨-, hlt, -, rfl⟩ | ⟨-, e, -, hfill⟩⟩
  -- a delimiter follows: the record and the delimiter are no longer pending
  · obtain ⟨hle, hget⟩ := indexFrom_eq_some hstop
    have hlt : stop < r.buffer.size := (Array.getElem?_eq_some_iff.1 hget).1
    left
    simp [weight]
    omega
  -- the source is at its end: nothing is pending, or all that is pending is the last record
  · exact Or.inr ⟨rfl, rfl⟩
  · left
    simp [weight]
    omega
  -- the source failed: an entry of its plan is used up
  · obtain ⟨hb, hp⟩ := fill_error hfill
    left
    rw [weight, weight, hb]
    omega

/-- **A search** does not raise the weight, and it lowers it unless it answers that there is no record. -/
theorem weight_search {r : RecordReader} {i : Nat} (hi : r.position ≤ i) :
    (r.search i).2.weight ≤ r.weight ∧
      ((r.search i).1 ≠ .ok none → (r.search i).2.weight < r.weight) := by
  fun_induction search r i with
  | case1 r i answer r' hstep =>
    rcases weight_of_step_done hi hstep with h | ⟨h, rfl⟩
    · exact ⟨Nat.le_of_lt h, fun _ => h⟩
    · exact ⟨Nat.le_refl _, fun hne => absurd h hne⟩
  | case2 r i r' j hstep ih =>
    obtain ⟨hle, h0⟩ := weight_le_of_step hstep
    obtain ⟨h1, h2⟩ := ih (by omega)
    exact ⟨by omega, fun hne => by have := h2 hne; omega⟩

/-- Asking for a record does not raise the weight. -/
theorem weight_next_le (r : RecordReader) : r.next.2.weight ≤ r.weight :=
  (weight_search (Nat.le_refl r.position)).1

/-- A record or an error lowers the weight. -/
theorem weight_next_lt {r : RecordReader} (h : r.next.1 ≠ .ok none) : r.next.2.weight < r.weight :=
  (weight_search (Nat.le_refl r.position)).2 h

end RecordReader

end RecordSort
