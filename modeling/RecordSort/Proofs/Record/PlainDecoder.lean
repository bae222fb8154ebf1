import RecordSort.Record.Calls
import RecordSort.Proofs.Record.Reading
import RecordSort.Proofs.Stream.Answers

/-! # A reader is a plain decoder

Whatever the transfers, a reader answers like a decoder that has all bytes before it: the bytes that the
source hands out before it first answers with nothing. To the errors of the source this adds nothing and
from them it takes nothing away but the interruptions.

* **`RecordReader.Asks`** — what the source has answered between two states of a reader.
* **`asks_fill`**, **`asks_search`**, **`asks_next`**, **`asks_drain`** — a refill, a search, a call and a
  whole reading.
* **`plainRun_of_inRange`** — calls to a reader in any state.
* **`plainRun_perform`** — calls to a reader that has not read yet. -/

namespace RecordSort

namespace RecordReader

/-- The bytes that the source has **still ahead** of it: those that it will hand out, unless it has
answered that it is at its end. -/
def ahead (r : RecordReader) : Bytes := if r.ended then [] else r.source.stream r.refill

/-- **Between `r` and `r'` the source has given answers**: it has been asked for the same number of bytes
each time, and the bytes that it had ahead are those that it has handed out and those that it has ahead
now. -/
structure Asks (r r' : RecordReader) (given : List SourceAnswer) : Prop where
  capacity : r'.capacity = r.capacity
  source : ByteSource.Gives r.refill r.source given r'.source
  ended : r'.ended = true ↔ r.ended = true ∨ .ok [] ∈ given
  ahead : r.ahead = handedOut given ++ r'.ahead

variable {r r' r'' : RecordReader} {given given' : List SourceAnswer}

/-- The number of bytes to ask for stays the same. -/
theorem Asks.refill_eq (h : r.Asks r' given) : r'.refill = r.refill := congrArg (max · 1) h.capacity

/-- A change of the position asks the source for nothing. -/
theorem asks_setPosition (r : RecordReader) (position : Nat) :
    r.Asks { r with position := position } [] :=
  ⟨rfl, .none _, by simp, rfl⟩

/-- A change of the delimiter asks the source for nothing. -/
theorem asks_setDelimiter (r : RecordReader) (d : UInt8) : r.Asks { r with delimiter := d } [] :=
  ⟨rfl, .none _, by simp, rfl⟩

/-- What a source has given adds up. -/
theorem Asks.trans (h : r.Asks r' given) (h' : r'.Asks r'' given') :
    r.Asks r'' (given ++ given') where
  capacity := h'.capacity.trans h.capacity
  source := h.source.trans (h.refill_eq ▸ h'.source)
  ended := by rw [h'.ended, h.ended, List.mem_append, or_assoc]
  ahead := by rw [h.ahead, h'.ahead, handedOut_append, List.append_assoc]

/-- A reader is exhausted when the source has answered that it is at its end and no byte remains. -/
theorem isExhausted_iff (r : RecordReader) :
    r.isExhausted = true ↔ r.ended = true ∧ r.remaining = [] := by
  cases hended : r.ended <;>
    simp [isExhausted, remaining, pending, hended]

/-! ## One call -/

/-- **A refill** asks the source once, and again while it is interrupted. -/
theorem asks_fill {outcome : Except StreamError Unit} (hended : r.ended = false)
    (h : r.fill = (outcome, r')) :
    ∃ given, r.Asks r' given ∧ raised given = (errorOf outcome).toList := by
  have hcapacity := r.sameSettings_compact.capacity
  have hrefill := r.sameSettings_compact.refill_eq
  simp only [refill] at hrefill
  rcases hread : r.source.readPatiently r.refill with ⟨a, source⟩
  obtain ⟨given, hgives, hbytes, hraised, hend⟩ := ByteSource.gives_readPatiently hread
  refine ⟨given, ?_⟩
  rcases a with e | _ | ⟨b, bs⟩ <;>
    simp only [fill, receive, hread, Prod.mk.injEq] at h <;> obtain ⟨rfl, rfl⟩ := h
  -- the source fails
  · have hstream := ByteSource.stream_of_readPatiently_error hread
    refine ⟨⟨hcapacity, hgives, by simp [hend], ?_⟩, hraised⟩
    simp only [refill] at hstream
    simp [ahead, refill, hended, hrefill, hstream, hbytes, bytesOf]
  -- the source is at its end
  · have hstream := ByteSource.stream_of_readPatiently_ok hread
    refine ⟨⟨hcapacity, hgives, by simp [hend], ?_⟩, hraised⟩
    simp [ahead, hended, hstream, hbytes, bytesOf]
  -- bytes are handed out
  · have hstream := ByteSource.stream_of_readPatiently_ok hread
    refine ⟨⟨hcapacity, hgives, by simp [hend], ?_⟩, hraised⟩
    simp only [refill] at hstream
    simp [ahead, refill, hended, hrefill, hstream, hbytes, bytesOf]

/-- A round that decides the answer asks the source only for a refill that fails. -/
theorem asks_of_step_done {i : Nat} {answer : RecordAnswer} (h : r.step i = .done answer r') :
    ∃ given, r.Asks r' given ∧ raised given = (errorOf answer).toList := by
  rcases step_eq_done h with ⟨stop, -, rfl, rfl⟩ |
    ⟨-, ⟨-, -, rfl, rfl⟩ | ⟨-, -, rfl, rfl⟩ | ⟨hended, e, rfl, hfill⟩⟩
  · exact ⟨[], r.asks_setPosition _, rfl⟩
  · exact ⟨[], r'.asks_setPosition _, rfl⟩
  · exact ⟨[], r.asks_setPosition _, rfl⟩
  · exact asks_fill hended hfill

/-- A round that goes on asks the source for a refill. -/
theorem asks_of_step_more {i j : Nat} (h : r.step i = .more r' j) :
    ∃ given, r.Asks r' given ∧ raised given = [] := by
  obtain ⟨-, hended, hfill, -⟩ := step_eq_more h
  exact asks_fill hended hfill

/-- A search passes on the error that the source raises, if there is one, and no other. -/
theorem asks_search (r : RecordReader) (i : Nat) :
    ∃ given, r.Asks (r.search i).2 given ∧ raised given = (errorOf (r.search i).1).toList := by
  fun_induction search r i with
  | case1 r i answer r' hstep => exact asks_of_step_done hstep
  | case2 r i r' j hstep ih =>
    obtain ⟨given, hasks, hnone⟩ := asks_of_step_more hstep
    obtain ⟨given', hasks', hraised⟩ := ih
    exact ⟨given ++ given', hasks.trans hasks', by rw [raised_append, hnone, hraised]; rfl⟩

/-- **A call passes on the error that the source raises**, if there is one, and no other. -/
theorem asks_next (r : RecordReader) :
    ∃ given, r.Asks r.next.2 given ∧ raised given = (errorOf r.next.1).toList :=
  r.asks_search r.position

/-- Where there is no record, the source has answered that it is at its end. -/
theorem ended_of_search {i : Nat} (h : (r.search i).1 = .ok none) : (r.search i).2.ended = true := by
  fun_induction search r i with
  | case1 r i answer r' hstep =>
    obtain rfl : answer = .ok none := h
    rcases step_eq_done hstep with ⟨stop, -, heq, -⟩ |
      ⟨-, ⟨hended, -, -, rfl⟩ | ⟨-, -, heq, -⟩ | ⟨-, e, heq, -⟩⟩
    · simp at heq
    · exact hended
    · simp at heq
    · simp at heq
  | case2 r i r' j hstep ih => exact ih h

/-- A reader without a further record has met the end of its source. -/
theorem ended_of_next (h : r.next.1 = .ok none) : r.next.2.ended = true := ended_of_search h

/-- **A whole reading.** Where it ends well the source has answered that it is at its end. -/
theorem asks_drain (r : RecordReader) :
    ∃ given, r.Asks (drain r).feed given ∧
      ((drain r).outcome = .ok () → (drain r).feed.ended = true) := by
  induction hw : FiniteFeed.weight r using Nat.strongRecOn generalizing r with
  | ind n ih =>
    obtain ⟨given, hasks, -⟩ := r.asks_next
    have hlt := FiniteFeed.weight_next_lt r
    have hend : r.next.1 = .ok none → r.next.2.ended = true := ended_of_next
    rcases hn : RecordFeed.next r with ⟨e | _ | p, r'⟩ <;> rw [hn] at hlt <;>
      rw [show r.next = _ from hn] at hasks hend
    · rw [drain_of_error hn]
      exact ⟨given, hasks, fun hok => by simp at hok⟩
    · rw [drain_of_none hn]
      exact ⟨given, hasks, fun _ => hend rfl⟩
    · obtain ⟨given', hasks', hok⟩ := ih _ (hw ▸ hlt (by simp)) r' rfl
      rw [drain_of_record hn]
      exact ⟨given ++ given', hasks.trans hasks', hok⟩

/-! ## Any number of calls -/

/-- **Calls to a reader in any state**: the answers are those of a plain decoder that has the remaining
bytes before it, and the errors among them are those that the source has raised. -/
theorem plainRun_of_inRange (h : r.InRange) (calls : List ReaderCall) :
    PlainRun r.delimiter r.remaining calls (r.perform calls).1 (r.perform calls).2.remaining ∧
      ∃ given, r.Asks (r.perform calls).2 given ∧
        (r.perform calls).1.filterMap errorOf = raised given := by
  induction calls generalizing r with
  | nil => exact ⟨.done _ _, [], r.asks_setDelimiter _, rfl⟩
  | cons call calls ih =>
    cases call with
    -- the remaining bytes do not depend on the delimiter
    | setDelimiter d =>
      obtain ⟨hrun, given, hasks, herrors⟩ := @ih { r with delimiter := d } h
      exact ⟨.setDelimiter hrun, given, (r.asks_setDelimiter d).trans hasks, herrors⟩
    | next =>
      obtain ⟨hanswers, hsettings, hrange, -⟩ := answers_next h
      obtain ⟨given, hasks, hraised⟩ := r.asks_next
      obtain ⟨hrun, given', hasks', herrors⟩ := ih hrange
      rw [hsettings.delimiter] at hrun
      rw [perform]
      refine ⟨?_, given ++ given', hasks.trans hasks', ?_⟩
      · rcases hn : r.next with ⟨e | _ | p, r'⟩ <;> rw [hn] at hanswers hrun
        · rw [hanswers.1] at hrun
          exact .failed hrun
        · rw [hanswers.2] at hrun
          rw [hanswers.1]
          exact .exhausted hrun
        · exact .record hanswers hrun
      · rw [raised_append, hraised, ← herrors, List.filterMap_cons]
        cases errorOf r.next.1 <;> rfl

/-- **A reader that has not read yet is a plain decoder**, for every source, capacity and row of calls.
The decoder has before it the bytes that the source hands out before it first answers with nothing, and
these are the whole data unless the source ends before its data do. With `given` for the answers that the
source has given on the way, and `left` for what the decoder has before it at the end:

* the errors among the answers of the reader are those that the source has raised, each once and in order;
* the reader is exhausted exactly if the source has answered that it is at its end and nothing is left. -/
theorem plainRun_perform (source : ByteSource) (capacity : Nat) (d : UInt8)
    (calls : List ReaderCall) :
    let r : RecordReader := { source := source, capacity := capacity, delimiter := d }
    let size := max capacity 1
    let out := r.perform calls
    (source.EndsWithData size → source.stream size = source.data) ∧
      ∃ given left, ByteSource.Gives size source given out.2.source ∧
        (.ok [] ∈ given ∧ source.stream size = handedOut given ∨
          .ok [] ∉ given ∧
            source.stream size = handedOut given ++ out.2.source.stream size) ∧
        PlainRun d (source.stream size) calls out.1 left ∧
        out.1.filterMap errorOf = raised given ∧
        (out.2.isExhausted = true ↔ .ok [] ∈ given ∧ left = []) := by
  intro r size out
  have hfresh : r.Fresh := ⟨rfl, rfl, rfl⟩
  have hsize : 0 < size := Nat.le_max_right capacity 1
  obtain ⟨hrun, given, hasks, herrors⟩ := plainRun_of_inRange hfresh.inRange calls
  have hended : out.2.ended = true ↔ .ok [] ∈ given := by
    rw [hasks.ended, hfresh.ended]
    simp
  have hahead : source.stream size = handedOut given ++ out.2.ahead := hasks.ahead
  rw [hfresh.remaining_eq_stream] at hrun
  refine ⟨ByteSource.stream_eq_data_of_endsWithData hsize, given, out.2.remaining, hasks.source, ?_,
    hrun, herrors, ?_⟩
  · cases hcase : out.2.ended with
    | true =>
      refine Or.inl ⟨hended.1 hcase, ?_⟩
      rw [hahead, ahead, hcase, if_pos rfl, List.append_nil]
    | false =>
      refine Or.inr ⟨fun hmem => ?_, ?_⟩
      · rw [hended.2 hmem] at hcase
        contradiction
      · rw [hahead, ahead, hcase, if_neg (by simp), hasks.refill_eq]
        rfl
  · rw [isExhausted_iff, hended]

/-- Short transfers, an interruption, a failure in the middle of a record and a change of the delimiter
with bytes already held: the decoder has the whole data before it. -/
theorem plainRun_perform_shortTransfers :
    let source : ByteSource :=
      { data := [97, 59, 98, 10, 99]
        plan := [.upTo 1, .fail (.reported .interrupted "again"), .upTo 2,
          .fail (.reported .timedOut "late"), .upTo 1] }
    let r : RecordReader := { source := source, capacity := 3, delimiter := 59 }
    let calls : List ReaderCall := [.next, .next, .setDelimiter newline, .next, .next, .next]
    ∃ left, PlainRun 59 [97, 59, 98, 10, 99] calls (r.perform calls).1 left := by
  intro source r calls
  obtain ⟨hdata, given, left, -, -, hrun, -, -⟩ := plainRun_perform source 3 59 calls
  have hstream : source.stream (max 3 1) = [97, 59, 98, 10, 99] :=
    hdata (ByteSource.endsWithData_of_not_mem (by decide) (by decide))
  rw [hstream] at hrun
  exact ⟨left, hrun⟩

end RecordReader

end RecordSort
