import Mathlib.Algebra.GroupWithZero.Nat
import Mathlib.Data.List.Basic
import RecordSort.Record.Calls
import RecordSort.Proofs.Stream.Offers
import RecordSort.Proofs.Record.RoundTrip

/-! # The accounts of a writer

A writer counts the records that it has written. A record that is cut short is not counted, and of its
bytes the sink has not accepted the last one, which is the delimiter: so the count is that of the
delimiters which the sink has accepted, however many calls have failed on the way. What a failed call has
left over is not kept for another one.

* **`offeredFrom_write`**, **`offeredFrom_writeRecords`** — what a call offers: its own values, each with
  the delimiter behind it, off their front.
* **`Accounts`** — as many records are counted as delimiters are accepted.
* **`accounts_afterCalls`** — every row of calls keeps the accounts.
* **`written_eq_count`** — what the sink and the count come to after any calls. -/

namespace RecordSort

open ByteSink (OfferedFrom)

/-- The delimiters of records that are written, and of the values themselves. -/
theorem count_encode (d : UInt8) (rs : List Record) :
    (encode d rs).count d = (rs.map fun r => 1 + r.count d).sum := by
  induction rs with
  | nil => rfl
  | cons r rest ih =>
    rw [encode_cons, List.count_append, List.count_cons_self, ih, List.map_cons, List.sum_cons]
    omega

/-- A first part of a piece with the delimiter behind it that is not all of it does not hold the
delimiter, if the piece does not. -/
theorem not_mem_of_append_eq_concat {d : UInt8} {part left segment : Bytes} (hsegment : d ∉ segment)
    (hleft : left ≠ []) (h : segment ++ [d] = part ++ left) : d ∉ part := by
  obtain ⟨front, last, rfl⟩ := List.eq_nil_or_concat left |>.resolve_left hleft
  rw [List.concat_eq_append, ← List.append_assoc] at h
  obtain ⟨hfront, -⟩ := List.append_inj' h rfl
  intro hmem
  apply hsegment
  rw [hfront]
  exact List.mem_append_left _ hmem

namespace RecordWriter

variable {w w' w'' : RecordWriter}

/-! ## What a call offers -/

/-- The bytes of a segment and its delimiter are offered from the first one on, and all of them are accepted
exactly if that succeeds. -/
theorem offeredFrom_writeSegment (w : RecordWriter) (segment : Record) :
    ∃ left, OfferedFrom (segment ++ [w.delimiter]) w.sink left (w.writeSegment segment).2.sink ∧
      ((w.writeSegment segment).1 = .ok () ↔ left = []) := by
  obtain ⟨left, hoffered, hok⟩ := w.sink.offeredFrom_writeAll (segment ++ [w.delimiter])
  unfold writeSegment
  rcases ha : w.sink.writeAll (segment ++ [w.delimiter]) with ⟨e | _, sink⟩ <;> rw [ha] at hoffered hok
  · exact ⟨left, hoffered, by simpa using hok⟩
  · exact ⟨left, hoffered, by simpa using hok⟩

/-- So are the bytes of segments, one after the other. -/
theorem offeredFrom_writeSegments (w : RecordWriter) (segments : List Record) :
    ∃ left, OfferedFrom (encode w.delimiter segments) w.sink left (w.writeSegments segments).2.sink ∧
      ((w.writeSegments segments).1 = .ok () ↔ left = []) := by
  induction segments generalizing w with
  | nil => exact ⟨[], .none _ _, by simp⟩
  | cons segment rest ih =>
    have hencode : encode w.delimiter (segment :: rest) =
        segment ++ [w.delimiter] ++ encode w.delimiter rest := rfl
    have hdelimiter := w.delimiter_writeSegment segment
    obtain ⟨left, hoffered, hok⟩ := w.offeredFrom_writeSegment segment
    rw [writeSegments, hencode]
    rcases ha : w.writeSegment segment with ⟨e | _, w₁⟩ <;> rw [ha] at hoffered hok hdelimiter
    -- the other segments are left, too
    · have hleft : left ≠ [] := by simpa using hok
      exact ⟨left ++ encode w.delimiter rest, hoffered.append _, by simp [hleft]⟩
    · obtain rfl : left = [] := hok.1 rfl
      obtain ⟨left', hafter, hok'⟩ := ih w₁
      rw [show w₁.delimiter = w.delimiter from hdelimiter] at hafter
      exact ⟨left', hoffered.andThen hafter, hok'⟩

/-- **Writing a value** offers the value with the delimiter behind it, off its front; the call succeeds
exactly if nothing of it is left. -/
theorem offeredFrom_write (w : RecordWriter) (value : Bytes) :
    ∃ left, OfferedFrom (value ++ [w.delimiter]) w.sink left (w.write value).2.sink ∧
      ((w.write value).1 = .ok () ↔ left = []) := by
  unfold write
  split
  -- a refused value is left as a whole
  · exact ⟨value ++ [w.delimiter], .none _ _, by simp⟩
  · rw [← encode_segments]
    exact w.offeredFrom_writeSegments _

/-- **Writing values** offers them one after the other, each with the delimiter behind it. -/
theorem offeredFrom_writeRecords (w : RecordWriter) (rs : List Record) :
    ∃ left, OfferedFrom (encode w.delimiter rs) w.sink left (w.writeRecords rs).2.sink ∧
      ((w.writeRecords rs).1 = .ok () ↔ left = []) := by
  induction rs generalizing w with
  | nil => exact ⟨[], .none _ _, by simp⟩
  | cons r rest ih =>
    have hencode : encode w.delimiter (r :: rest) =
        r ++ [w.delimiter] ++ encode w.delimiter rest := rfl
    have hspends := w.spends_write r
    obtain ⟨left, hoffered, hok⟩ := w.offeredFrom_write r
    rw [writeRecords, hencode]
    rcases ha : w.write r with ⟨e | _, w₁⟩ <;> rw [ha] at hoffered hok hspends
    · have hleft : left ≠ [] := by simpa using hok
      exact ⟨left ++ encode w.delimiter rest, hoffered.append _, by simp [hleft]⟩
    · obtain rfl : left = [] := hok.1 rfl
      obtain ⟨left', hafter, hok'⟩ := ih w₁
      rw [hspends.delimiter] at hafter
      exact ⟨left', hoffered.andThen hafter, hok'⟩

/-! ## Counting -/

/-- The sink has accepted some bytes, and **as many records were counted as delimiters are among them**. -/
structure Accounts (w w' : RecordWriter) : Prop where
  delimiter : w'.delimiter = w.delimiter
  counted : ∃ accepted, w'.sink.contents = w.sink.contents ++ accepted ∧
    w'.written = w.written + accepted.count w.delimiter

/-- A writer that has done nothing keeps the accounts. -/
theorem Accounts.refl (w : RecordWriter) : w.Accounts w :=
  ⟨rfl, [], (List.append_nil _).symm, rfl⟩

/-- Accounts add up. -/
theorem Accounts.trans (h : w.Accounts w') (h' : w'.Accounts w'') : w.Accounts w'' := by
  obtain ⟨accepted, hcontents, hwritten⟩ := h.counted
  obtain ⟨accepted', hcontents', hwritten'⟩ := h'.counted
  refine ⟨h'.delimiter.trans h.delimiter, accepted ++ accepted', ?_, ?_⟩
  · rw [hcontents', hcontents, List.append_assoc]
  · rw [hwritten', hwritten, h.delimiter, List.count_append]
    omega

/-- **A segment is counted exactly if its delimiter is accepted.** -/
theorem accounts_writeSegment {segment : Record} (h : w.delimiter ∉ segment) :
    w.Accounts (w.writeSegment segment).2 := by
  obtain ⟨left, hoffered, hok⟩ := w.offeredFrom_writeSegment segment
  obtain ⟨accepted, hwhole, hcontents⟩ := hoffered.exists_accepted
  refine ⟨w.delimiter_writeSegment segment, accepted, hcontents, ?_⟩
  unfold writeSegment at hok ⊢
  rcases ha : w.sink.writeAll (segment ++ [w.delimiter]) with ⟨e | _, sink⟩ <;> rw [ha] at hok
  -- what is accepted of a segment that is cut short comes before the delimiter
  · have hleft : left ≠ [] := by simpa using hok
    have hnot : w.delimiter ∉ accepted := not_mem_of_append_eq_concat h hleft hwhole
    exact (List.count_eq_zero.2 hnot).symm ▸ rfl
  · obtain rfl : left = [] := by simpa using hok
    rw [List.append_nil] at hwhole
    show w.written + 1 = _
    rw [← hwhole, List.count_append, List.count_eq_zero.2 h, List.count_singleton_self]

/-- Segments are counted as their delimiters are accepted. -/
theorem accounts_writeSegments {segments : List Record} (h : ∀ s ∈ segments, w.delimiter ∉ s) :
    w.Accounts (w.writeSegments segments).2 := by
  induction segments generalizing w with
  | nil => exact .refl w
  | cons segment rest ih =>
    have hfirst := accounts_writeSegment (h segment List.mem_cons_self)
    rw [writeSegments]
    rcases ha : w.writeSegment segment with ⟨e | _, w₁⟩ <;> rw [ha] at hfirst
    · exact hfirst
    · refine hfirst.trans (ih ?_)
      intro s hs
      rw [hfirst.delimiter]
      exact h s (List.mem_cons_of_mem _ hs)

/-- So are the records of a value. -/
theorem accounts_write (w : RecordWriter) (value : Bytes) : w.Accounts (w.write value).2 := by
  unfold write
  split
  · exact .refl w
  · exact accounts_writeSegments fun _ hs => not_mem_of_mem_segments hs

/-- So are records one after the other. -/
theorem accounts_writeRecords (w : RecordWriter) (rs : List Record) :
    w.Accounts (w.writeRecords rs).2 := by
  induction rs generalizing w with
  | nil => exact .refl w
  | cons r rest ih =>
    have hfirst := w.accounts_write r
    rw [writeRecords]
    rcases ha : w.write r with ⟨e | _, w₁⟩ <;> rw [ha] at hfirst
    · exact hfirst
    · exact hfirst.trans (ih w₁)

/-! ## Any row of calls -/

/-- A flush keeps the accounts. -/
theorem accounts_flush (w : RecordWriter) : w.Accounts w.flush.2 :=
  ⟨rfl, [], by rw [List.append_nil]; exact w.sink.contents_flush, rfl⟩

/-- **Calls keep the accounts**, in any order and whether they fail or not. -/
theorem accounts_afterCalls (w : RecordWriter) (calls : List WriterCall) :
    w.Accounts (w.afterCalls calls) := by
  induction calls generalizing w with
  | nil => exact .refl w
  | cons call calls ih =>
    cases call with
    | write value => exact (w.accounts_write value).trans (ih _)
    | flush => exact w.accounts_flush.trans (ih _)
    | setPolicy policy =>
      have hsame : w.Accounts { w with policy := policy } :=
        ⟨rfl, [], (List.append_nil _).symm, rfl⟩
      exact hsame.trans (ih _)

/-- **The count is that of the accepted delimiters**, after any calls to a new writer and on every sink.
What the next call does is told by what it is given:

* a value that is written is accepted with one delimiter behind it, and of one that fails a first part of
  this, never all of it;
* a value that is refused changes nothing, and so no offer is made for it;
* every offer of the call is of the bytes that come next in its own value and the delimiter behind it, and a
  flush makes none: what an earlier call has left over is not offered again. -/
theorem written_eq_count (d : UInt8) (policy : DelimiterPolicy) (sink : ByteSink)
    (calls : List WriterCall) :
    let w := ({ sink := sink, delimiter := d, policy := policy } : RecordWriter).afterCalls calls
    (∃ accepted, w.sink.contents = sink.contents ++ accepted ∧ w.written = accepted.count d) ∧
      (∀ value : Bytes,
        let out := w.write value
        (out.1 = .ok () → out.2.sink.contents = w.sink.contents ++ (value ++ [d])) ∧
          (∀ e, out.1 = .error e → ∃ part rest, value ++ [d] = part ++ rest ∧ rest ≠ [] ∧
            out.2.sink.contents = w.sink.contents ++ part) ∧
          (w.policy = .reject → d ∈ value → out = (.error .delimiterInRecord, w)) ∧
          ∃ left, OfferedFrom (value ++ [d]) w.sink left out.2.sink) ∧
      w.flush.2.sink.contents = w.sink.contents ∧ w.flush.2.sink.offers = w.sink.offers := by
  intro w
  have haccounts : ({ sink := sink, delimiter := d, policy := policy } : RecordWriter).Accounts w :=
    accounts_afterCalls _ calls
  have hdelimiter : w.delimiter = d := haccounts.delimiter
  refine ⟨?_, ?_, w.sink.contents_flush, w.sink.offers_flush⟩
  · obtain ⟨accepted, hcontents, hwritten⟩ := haccounts.counted
    exact ⟨accepted, hcontents, hwritten.trans (Nat.zero_add _)⟩
  · intro value out
    obtain ⟨left, hoffered, hok⟩ := w.offeredFrom_write value
    obtain ⟨accepted, hwhole, hcontents⟩ := hoffered.exists_accepted
    rw [hdelimiter] at hoffered hwhole
    refine ⟨?_, ?_, ?_, left, hoffered⟩
    · intro hout
      rw [hok.1 hout, List.append_nil] at hwhole
      rw [hwhole]
      exact hcontents
    · intro e hout
      refine ⟨accepted, left, hwhole, ?_, hcontents⟩
      intro hleft
      rw [show (w.write value).1 = .error e from hout] at hok
      simp [hleft] at hok
    · intro hreject hmem
      exact write_reject hreject (hdelimiter.symm ▸ hmem)

/-- A sink that takes one byte, is interrupted, takes one byte and then none: of two segments the first is
counted. The next value finds nothing of the second one in its way, and one that is refused changes
nothing. -/
theorem written_eq_count_shortWrites :
    let sink : ByteSink :=
      { plan := [.upTo 1, .fail (.reported .interrupted "again"), .upTo 1, .upTo 0] }
    let start : RecordWriter := { sink := sink }
    let w := start.afterCalls [.write [97, 10, 98], .flush, .setPolicy .reject]
    (∃ part rest, [97, 10, 98, 10] = part ++ rest ∧ rest ≠ [] ∧
        (start.write [97, 10, 98]).2.sink.contents = part) ∧
      w.written = w.sink.contents.count newline ∧
      (w.write [99]).2.sink.contents = w.sink.contents ++ [99, 10] ∧
      w.write [99, 10] = (.error .delimiterInRecord, w) := by
  intro sink start w
  obtain ⟨-, hstart, -⟩ := written_eq_count newline .split sink []
  obtain ⟨⟨accepted, hcontents, hwritten⟩, hw, -⟩ := written_eq_count newline .split sink
    [.write [97, 10, 98], .flush, .setPolicy .reject]
  have hnew : w.sink.contents = accepted := hcontents
  refine ⟨?_, hnew ▸ hwritten, ?_, ?_⟩
  · exact (hstart [97, 10, 98]).2.1 .writeZero (by decide +kernel)
  · exact (hw [99]).1 (by decide +kernel)
  · exact (hw [99, 10]).2.2.1 (by decide +kernel) (by decide)

end RecordWriter

end RecordSort
