import RecordSort.Proofs.Record.Accounting
import RecordSort.Proofs.Record.PlainDecoder

/-! # The errors that are still ahead

A plan lays down which errors a stream will report. Those that are still *ahead* of it come in the order of
the plan, and a call that fails tells the first of them and takes it off: so it can be read off the errors
ahead before and after a call which error the call has met, if any.

* **`ByteSource.errorsAhead`**, **`ByteSink.errorsAhead`** — the errors ahead of requests and of offers,
  interruptions apart.
* **`ByteSink.flushErrorsAhead`** — the errors ahead of flushes, interruptions included.
* **`errorsAhead_next`**, **`errorsAhead_drain`** — a call to a reader, and a whole reading.
* **`errorsAhead_writeAll`**, **`errorsAhead_writeRecords`** — writing bytes, and writing records.
* **`CutShort`** — what a sink holds if writing to it has failed.
* **`saved_or_failed`** — what saving records to a sink comes to. -/

namespace RecordSort

namespace Transfer

/-- The error with which a request **fails for good** if this transfer is laid down for it. An interrupted
request is made again. -/
def requestError? : Transfer → Option StreamError
  | upTo _ => none
  | fail e => if e.isInterrupted then none else some e

/-- The error with which an offer fails for good: accepting nothing is a failure of offers. -/
def offerError? : Transfer → Option StreamError
  | upTo 0 => some .writeZero
  | upTo (_ + 1) => none
  | fail e => if e.isInterrupted then none else some e

/-- The error with which a flush fails. No flush is made again. -/
def flushError? : Transfer → Option StreamError
  | upTo _ => none
  | fail e => some e

end Transfer

/-! ## Sources and readers -/

namespace ByteSource

/-- The errors **ahead of requests**. -/
def errorsAhead (s : ByteSource) : List StreamError := s.plan.filterMap Transfer.requestError?

variable {size : Nat} {s s' : ByteSource} {given : List SourceAnswer}

/-- One request takes off the error that it raises. -/
theorem errorsAhead_of_read {a : SourceAnswer} (h : s.read size = (a, s')) :
    s.errorsAhead = raised [a] ++ s'.errorsAhead := by
  rcases a with e | bs
  · rw [errorsAhead, errorsAhead, (read_error h).1, List.filterMap_cons, Transfer.requestError?]
    cases hint : e.isInterrupted with
    | true => rw [raised_of_interrupted hint]; rfl
    | false => rw [raised_of_not_interrupted hint]; rfl
  · rcases hp : s.plan with _ | ⟨count | e, plan⟩ <;>
      simp only [read, hp, deliver, Prod.mk.injEq, reduceCtorEq, false_and] at h
    all_goals
      obtain ⟨-, rfl⟩ := h
      rw [errorsAhead, hp]
      rfl

/-- **The errors that a source has raised** were ahead of it, in this order. -/
theorem Gives.errorsAhead_eq (h : Gives size s given s') :
    s.errorsAhead = raised given ++ s'.errorsAhead := by
  induction h with
  | none s => rfl
  | @request s s₁ s₂ a given first _ ih =>
    have hcons : raised ([a] ++ given) = raised [a] ++ raised given := raised_append
    rw [List.singleton_append] at hcons
    rw [hcons, List.append_assoc, ← ih]
    exact errorsAhead_of_read first

end ByteSource

namespace RecordReader

/-- **A call to a reader** tells the first error ahead, if it fails, and otherwise meets none. -/
theorem errorsAhead_next (r : RecordReader) :
    r.source.errorsAhead = (errorOf r.next.1).toList ++ r.next.2.source.errorsAhead := by
  obtain ⟨given, hasks, hraised⟩ := r.asks_next
  rw [← hraised]
  exact hasks.source.errorsAhead_eq

/-- **A whole reading** tells the first error ahead, if it fails, and otherwise meets none. -/
theorem errorsAhead_drain (r : RecordReader) :
    r.source.errorsAhead =
      (errorOf (drain r).outcome).toList ++ (drain r).feed.source.errorsAhead := by
  induction hw : FiniteFeed.weight r using Nat.strongRecOn generalizing r with
  | ind n ih =>
    have hnext := r.errorsAhead_next
    have hlt := FiniteFeed.weight_next_lt r
    rcases hn : RecordFeed.next r with ⟨e | _ | p, r'⟩ <;> rw [hn] at hlt <;>
      rw [show r.next = _ from hn] at hnext
    · rw [drain_of_error hn]
      exact hnext
    · rw [drain_of_none hn]
      exact hnext
    · rw [drain_of_record hn]
      exact hnext.trans (ih _ (hw ▸ hlt (by simp)) r' rfl)

end RecordReader

/-! ## Sinks and writers -/

namespace ByteSink

/-- The errors **ahead of offers**. -/
def errorsAhead (s : ByteSink) : List StreamError := s.plan.filterMap Transfer.offerError?

/-- The errors **ahead of flushes**. -/
def flushErrorsAhead (s : ByteSink) : List StreamError := s.flushPlan.filterMap Transfer.flushError?

variable {s s' : ByteSink} {bs : Bytes}

/-- An offer that fails takes off its error, unless it is an interruption. -/
theorem errorsAhead_of_offer_error {e : StreamError} (h : s.offer bs = (.error e, s')) :
    s.errorsAhead = (if e.isInterrupted then [] else [e]) ++ s'.errorsAhead := by
  rw [errorsAhead, errorsAhead, (offer_error h).1, List.filterMap_cons, Transfer.offerError?]
  cases e.isInterrupted <;> rfl

/-- An offer of which nothing is accepted takes off its error. -/
theorem errorsAhead_of_offer_zero (hbs : bs ≠ []) (h : s.offer bs = (.ok 0, s')) :
    s.errorsAhead = .writeZero :: s'.errorsAhead := by
  have hlen := List.length_pos_iff.2 hbs
  rcases hp : s.plan with _ | ⟨count | e, plan⟩ <;>
    simp only [offer, hp, accept, Prod.mk.injEq, Except.ok.injEq, reduceCtorEq, false_and] at h
  · omega
  · obtain ⟨hcount, rfl⟩ := h
    obtain rfl : count = 0 := by omega
    rw [errorsAhead, hp]
    rfl

/-- An offer of which something is accepted meets no error. -/
theorem errorsAhead_of_offer_succ {n : Nat} (h : s.offer bs = (.ok (n + 1), s')) :
    s.errorsAhead = s'.errorsAhead := by
  rcases hp : s.plan with _ | ⟨(_ | count) | e, plan⟩ <;>
    simp only [offer, hp, accept, Prod.mk.injEq, Except.ok.injEq, reduceCtorEq, false_and] at h
  · rw [← h.2, errorsAhead, hp]
    rfl
  · omega
  · rw [← h.2, errorsAhead, hp]
    rfl

/-- **Writing bytes** tells the first error ahead, if it fails, and otherwise meets none. -/
theorem errorsAhead_writeAll (s : ByteSink) (bs : Bytes) :
    s.errorsAhead = (errorOf (s.writeAll bs).1).toList ++ (s.writeAll bs).2.errorsAhead := by
  fun_induction writeAll s bs with
  | case1 s => rfl
  | case2 s bs hbs s' ho => exact errorsAhead_of_offer_zero hbs ho
  | case3 s bs _ n s' ho ih => rw [errorsAhead_of_offer_succ ho, ih]
  | case4 s bs _ e s' ho hint ih => rw [errorsAhead_of_offer_error ho, if_pos hint, ih]; rfl
  | case5 s bs _ e s' ho hint => rw [errorsAhead_of_offer_error ho, if_neg hint]; rfl

/-- **A flush** tells the first error ahead of flushes, if it fails, and otherwise meets none. -/
theorem flushErrorsAhead_flush (s : ByteSink) :
    s.flushErrorsAhead = (errorOf s.flush.1).toList ++ s.flush.2.flushErrorsAhead := by
  rcases hp : s.flushPlan with _ | ⟨_ | e, plan⟩ <;> simp only [flush, flushErrorsAhead, hp] <;> rfl

/-- A flush offers nothing. -/
theorem errorsAhead_flush (s : ByteSink) : s.flush.2.errorsAhead = s.errorsAhead := by
  rcases hp : s.flushPlan with _ | ⟨_ | e, plan⟩ <;> simp only [flush, errorsAhead, hp]

/-- Offers use up no flushes. -/
theorem Spends.flushErrorsAhead_eq (h : s.Spends s') :
    s'.flushErrorsAhead = s.flushErrorsAhead :=
  congrArg (List.filterMap Transfer.flushError?) h.flushPlan

/-- Writing `whole` to the sink `s` was **cut short**: the sink has taken up a part of it from its front,
and not all of it. -/
def CutShort (s s' : ByteSink) (whole : Bytes) : Prop :=
  ∃ part rest, whole = part ++ rest ∧ rest ≠ [] ∧ s'.contents = s.contents ++ part

/-- Offers off the front that leave something over are cut short. -/
theorem OfferedFrom.cutShort {whole left : Bytes} (h : OfferedFrom whole s left s') (hleft : left ≠ []) :
    s.CutShort s' whole := by
  obtain ⟨accepted, hwhole, hcontents⟩ := h.exists_accepted
  exact ⟨accepted, left, hwhole, hleft, hcontents⟩

end ByteSink

namespace RecordWriter

variable {w w' : RecordWriter}

/-- The error with which a segment fails is the first one ahead, and behind it are those that were behind it
before. -/
theorem errorsAhead_writeSegment (w : RecordWriter) (segment : Record) :
    w.sink.errorsAhead =
      (errorOf (w.writeSegment segment).1).toList ++ (w.writeSegment segment).2.sink.errorsAhead := by
  have hsink := w.sink.errorsAhead_writeAll (segment ++ [w.delimiter])
  unfold writeSegment
  rcases ha : w.sink.writeAll (segment ++ [w.delimiter]) with ⟨e | _, sink⟩ <;> rw [ha] at hsink
  · exact hsink
  · exact hsink

/-- So it is with segments. -/
theorem errorsAhead_writeSegments (w : RecordWriter) (segments : List Record) :
    w.sink.errorsAhead =
      (errorOf (w.writeSegments segments).1).toList ++
        (w.writeSegments segments).2.sink.errorsAhead := by
  induction segments generalizing w with
  | nil => rfl
  | cons segment rest ih =>
    have hfirst := w.errorsAhead_writeSegment segment
    rw [writeSegments]
    rcases ha : w.writeSegment segment with ⟨e | _, w'⟩ <;> rw [ha] at hfirst
    · exact hfirst
    · exact hfirst.trans (ih w')

/-- Writing a value that is not refused tells the first error ahead, if it fails, and otherwise meets none. -/
theorem errorsAhead_write (hsplit : w.policy = .split) (value : Bytes) :
    w.sink.errorsAhead =
      (errorOf (w.write value).1).toList ++ (w.write value).2.sink.errorsAhead := by
  rw [write, if_neg (by simp [hsplit])]
  exact w.errorsAhead_writeSegments _

/-- **Writing values** that are not refused tells the first error ahead, if it fails, and otherwise meets
none. -/
theorem errorsAhead_writeRecords (hsplit : w.policy = .split) (rs : List Record) :
    w.sink.errorsAhead =
      (errorOf (w.writeRecords rs).1).toList ++ (w.writeRecords rs).2.sink.errorsAhead := by
  induction rs generalizing w with
  | nil => rfl
  | cons r rest ih =>
    have hfirst := errorsAhead_write hsplit r
    have hspends := w.spends_write r
    rw [writeRecords]
    rcases ha : w.write r with ⟨e | _, w'⟩ <;> rw [ha] at hfirst hspends
    · exact hfirst
    · exact hfirst.trans (ih (hspends.policy.trans hsplit))

/-- **Writing values that fails is cut short.** -/
theorem cutShort_of_writeRecords {rs : List Record} {e : StreamError}
    (h : w.writeRecords rs = (.error e, w')) :
    w.sink.CutShort w'.sink (encode w.delimiter rs) := by
  obtain ⟨left, hoffered, hok⟩ := w.offeredFrom_writeRecords rs
  rw [h] at hoffered hok
  exact hoffered.cutShort (by simpa using hok)

end RecordWriter

/-- **Saving records** to a sink either fails while they are written, and then the sink has not been
flushed; or the sink takes up all of them, and what follows is one flush. -/
theorem saved_or_failed (d : UInt8) (rs : List Record) (sink : ByteSink) :
    let out := saveRecords d rs sink
    (∃ e, out.1 = .error e ∧ sink.errorsAhead = e :: out.2.errorsAhead ∧
        sink.CutShort out.2 (encode d rs) ∧ out.2.flushes = sink.flushes) ∨
      ∃ full, sink.errorsAhead = full.errorsAhead ∧ sink.Spends full ∧
        full.contents = sink.contents ++ encode d rs ∧ out = full.flush := by
  intro out
  obtain ⟨w, hw⟩ : ∃ w : RecordWriter, w = { sink := sink, delimiter := d } := ⟨_, rfl⟩
  have hsplit : w.policy = .split := hw ▸ rfl
  have hmet := RecordWriter.errorsAhead_writeRecords hsplit rs
  have hspends := w.spends_writeRecords rs
  rw [show out = saveRecords d rs sink from rfl, saveRecords, ← hw]
  rcases ha : w.writeRecords rs with ⟨e | _, w'⟩ <;> rw [ha] at hmet hspends <;> dsimp only
  · have hcut := RecordWriter.cutShort_of_writeRecords ha
    rw [hw] at hmet hcut hspends
    exact Or.inl ⟨e, rfl, hmet, hcut, hspends.sink.flushes⟩
  · have hcontents := RecordWriter.contents_of_writeRecords ha
    rw [hw] at hmet hcontents hspends
    exact Or.inr ⟨w'.sink, hmet, hspends.sink, hcontents, rfl⟩

end RecordSort
