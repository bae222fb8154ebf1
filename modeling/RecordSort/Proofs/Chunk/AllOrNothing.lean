import RecordSort.Proofs.Record.ErrorsAhead
import RecordSort.Proofs.Record.TotalPreorder
import RecordSort.Proofs.Sort.Failures

/-! # A chunk is sorted as a whole or not at all

The sort of a chunk goes through five phases: it opens the chunk, reads it, writes the records to the sink
of a replacement, flushes the sink and commits the replacement. The first phase that fails ends it, and then
the chunk keeps its content. Only if all of them go well do the sorted records take the place of the content.

* **`Phase`** — the phases, in their order; how often the chunk is replaced, and how often a sink is flushed,
  up to each of them.
* **`Reads`**, **`Writes`** — what is the case once all reads, or all writes, have gone well.
* **`Fails`**, **`Succeeds`** — how the sort of a chunk fails in a phase, and how it succeeds.
* **`load_fails_or_reads`**, **`save_fails_or_succeeds`** — the two steps of a sort.
* **`sortBy_succeeds_or_fails`** — the whole sort, and what it leaves. -/

namespace RecordSort

namespace ChunkSorter

/-! ## Phases -/

/-- The **phases** of the sort of a chunk. -/
inductive Phase
  /-- The chunk is opened. -/
  | opening
  /-- Its records are read. -/
  | reading
  /-- They are written to the sink of a replacement. -/
  | writing
  /-- The sink is flushed. -/
  | flushing
  /-- The replacement is committed. -/
  | committing
  deriving DecidableEq, Repr

/-- How often the chunk is to be replaced if its sort fails in this phase: a chunk that cannot be opened or
read is not replaced. -/
def Phase.replacements : Phase → Nat
  | opening | reading => 0
  | writing | flushing | committing => 1

/-- How often the sink of the replacement is flushed if the sort fails in this phase: not before every record
has been written. -/
def Phase.flushes : Phase → Nat
  | opening | reading | writing => 0
  | flushing | committing => 1

/-- A reading of the content `data` by a plan, to its end or up to an error. -/
def reading (s : ChunkSorter) (data : Bytes) (plan : List Transfer) : Drained RecordReader :=
  drain (s.reader { data := data, plan := plan })

/-- **All reads have gone well**: none of them has met an error, and the records of the bytes that the
source has handed out before it first answered with nothing have been put in order. -/
structure Reads (s : ChunkSorter) (cmp : Record → Record → Ordering) (data : Bytes) (c : MemoryChunk)
    (plan : List Transfer) (rs : List Record) : Prop where
  /-- The chunk can be opened. -/
  opening : c.nextOpening = .serve plan
  /-- No error that was ahead of the reads is behind them. -/
  met : ({ data := data, plan := plan } : ByteSource).errorsAhead =
    (s.reading data plan).feed.source.errorsAhead
  /-- The records are those that have been read, in order. -/
  arranged : rs = s.arrange cmp (s.reading data plan).records
  /-- They are the records of the bytes that have been handed out. -/
  perm : rs.Perm (decode s.delimiter
    (({ data := data, plan := plan } : ByteSource).stream (max s.bufferSize 1)))
  /-- They are in order. -/
  sorted : IsSorted cmp rs

/-- **All writes have gone well**: none of them has met an error, and the sink holds all records. It has
not been flushed, and what follows is one flush. -/
structure Writes (s : ChunkSorter) (c : MemoryChunk) (rs : List Record) (full : ByteSink) : Prop where
  /-- No error that was ahead of the writes is behind them. -/
  met : c.nextSink.errorsAhead = full.errorsAhead
  /-- The sink has taken up all records. -/
  contents : full.contents = encode s.delimiter rs
  /-- The errors ahead of flushes are still ahead. -/
  flushErrors : full.flushErrorsAhead = c.nextSink.flushErrorsAhead
  /-- The sink has not been flushed. -/
  flushes : full.flushes = 0
  /-- What follows is one flush. -/
  saved : saveRecords s.delimiter rs c.nextSink = full.flush

/-- The sort of a chunk with the content `data` **fails in a phase**, all phases before it having gone
well; `sinks` are those of the replacements that it has begun, as they were when these ended. -/
inductive Fails (s : ChunkSorter) (cmp : Record → Record → Ordering) (data : Bytes) (c : MemoryChunk) :
    Phase → StreamError → List ByteSink → Prop
  /-- The chunk cannot be opened. -/
  | opening {e : StreamError} (refused : c.nextOpening = .refuse e) : Fails s cmp data c .opening e []
  /-- A read fails, with the first error that was ahead of the reads. -/
  | reading {plan : List Transfer} {e : StreamError} (opening : c.nextOpening = .serve plan)
      (met : ({ data := data, plan := plan } : ByteSource).errorsAhead =
        e :: (s.reading data plan).feed.source.errorsAhead) :
      Fails s cmp data c .reading e []
  /-- A write fails, with the first error that was ahead of the writes. The sink is not flushed. -/
  | writing {plan : List Transfer} {rs : List Record} {sink : ByteSink} {e : StreamError}
      (reads : s.Reads cmp data c plan rs)
      (saved : saveRecords s.delimiter rs c.nextSink = (.error e, sink))
      (met : c.nextSink.errorsAhead = e :: sink.errorsAhead)
      (cut : c.nextSink.CutShort sink (encode s.delimiter rs)) (flushes : sink.flushes = 0) :
      Fails s cmp data c .writing e [sink]
  /-- The flush fails, with the first error that was ahead of flushes. -/
  | flushing {plan : List Transfer} {rs : List Record} {full : ByteSink} {e : StreamError}
      (reads : s.Reads cmp data c plan rs) (writes : s.Writes c rs full)
      (met : c.nextSink.flushErrorsAhead = e :: full.flush.2.flushErrorsAhead) :
      Fails s cmp data c .flushing e [full.flush.2]
  /-- The commit fails. -/
  | committing {plan : List Transfer} {rs : List Record} {full : ByteSink} {e : StreamError}
      (reads : s.Reads cmp data c plan rs) (writes : s.Writes c rs full)
      (flushed : c.nextSink.flushErrorsAhead = full.flush.2.flushErrorsAhead)
      (refused : c.nextReplacing.commitError = some e) :
      Fails s cmp data c .committing e [full.flush.2]

/-- The sort of a chunk with the content `data` **succeeds** with the records `rs`: no phase meets an
error. -/
structure Succeeds (s : ChunkSorter) (cmp : Record → Record → Ordering) (data : Bytes)
    (c : MemoryChunk) (plan : List Transfer) (full : ByteSink) (rs : List Record) : Prop where
  /-- All reads go well. -/
  reads : s.Reads cmp data c plan rs
  /-- All writes go well. -/
  writes : s.Writes c rs full
  /-- The flush goes well. -/
  flushed : c.nextSink.flushErrorsAhead = full.flush.2.flushErrorsAhead
  /-- The commit goes well. -/
  committed : c.nextReplacing.commitError = none

variable {s : ChunkSorter} {cmp : Record → Record → Ordering} {m : Memory} {i : Nat}
  {c : MemoryChunk} {data : Bytes} {plan : List Transfer} {rs : List Record}

/-- A sink **to which all records have been written** is flushed once. -/
theorem Writes.flushes_flush {full : ByteSink} (h : s.Writes c rs full) : full.flush.2.flushes = 1 := by
  rw [ByteSink.flushes_flush, h.flushes]

/-- How often a sink has been flushed **follows from the phase** in which the sort fails. -/
theorem Fails.flushes {phase : Phase} {e : StreamError} {sinks : List ByteSink}
    (h : s.Fails cmp data c phase e sinks) : ∀ sink ∈ sinks, sink.flushes = phase.flushes := by
  cases h with
  | opening => exact fun sink hsink => nomatch hsink
  | reading => exact fun sink hsink => nomatch hsink
  | writing reads saved met cut flushes => exact List.forall_mem_singleton.2 flushes
  | flushing reads writes => exact List.forall_mem_singleton.2 writes.flushes_flush
  | committing reads writes => exact List.forall_mem_singleton.2 writes.flushes_flush

/-! ## The two steps -/

/-- A reading that ends well has read all that there was to read. -/
theorem reads_of_reading (hsort : IsSort cmp (s.arrange cmp)) (hopening : c.nextOpening = .serve plan)
    (hok : (s.reading data plan).outcome = .ok ()) :
    s.Reads cmp data c plan (s.arrange cmp (s.reading data plan).records) where
  opening := hopening
  met := by
    have hmet := (s.reader { data := data, plan := plan }).errorsAhead_drain
    rw [show (drain _).outcome = _ from hok] at hmet
    exact hmet
  arranged := rfl
  perm := by
    have hfresh := s.fresh_reader { data := data, plan := plan }
    have hrecords := (RecordReader.drain_eq_decode hfresh.inRange).1 hok
    rw [hfresh.remaining_eq_stream] at hrecords
    exact (hsort _).1.trans (List.Perm.of_eq hrecords)
  sorted := (hsort _).2

/-- **The first step** fails while the chunk is opened or read, or loads the records. -/
theorem load_fails_or_reads (hsort : IsSort cmp (s.arrange cmp)) (hc : m.chunks[i]? = some c) :
    (∃ phase e, s.Fails cmp (m.content i) c phase e [] ∧ phase.replacements = 0 ∧
        s.load m i = (.error e, m.setChunk i c.noteOpening)) ∨
      ∃ plan loaded, s.Reads cmp (m.content i) c plan (s.arrange cmp loaded) ∧
        s.load m i = (.ok loaded, m.setChunk i c.noteOpening) := by
  cases hopening : c.nextOpening with
  | refuse e => exact Or.inl ⟨_, e, .opening hopening, rfl, load_of_refuse hc hopening⟩
  | serve plan =>
    have hload := load_of_serve (s := s) hc hopening
    have hmet := (s.reader { data := m.content i, plan := plan }).errorsAhead_drain
    cases houtcome : (drain (s.reader { data := m.content i, plan := plan })).outcome with
    | error e =>
      rw [houtcome] at hload hmet
      exact Or.inl ⟨_, e, .reading hopening hmet, rfl, hload⟩
    | ok =>
      rw [houtcome] at hload
      exact Or.inr ⟨plan, _, reads_of_reading hsort hopening houtcome, hload⟩

/-- **The second step** fails while the chunk is replaced, or succeeds. -/
theorem save_fails_or_succeeds (h : s.Reads cmp data c plan rs) :
    let sink := (saveRecords s.delimiter rs c.nextSink).2
    (∃ phase e, s.Fails cmp data c phase e [sink] ∧ phase.replacements = 1 ∧
        c.saveError? s.delimiter rs = some e) ∨
      ∃ full, s.Succeeds cmp data c plan full rs ∧ full.flush.2 = sink ∧
        c.saveError? s.delimiter rs = none := by
  intro sink
  rw [MemoryChunk.saveError?]
  rcases saved_or_failed s.delimiter rs c.nextSink with
    ⟨e, herror, hmet, hcut, hflushes⟩ | ⟨full, hmet, hspends, hcontents, hsaved⟩
  · exact Or.inl ⟨_, e, .writing h (Prod.ext herror rfl) hmet hcut hflushes, rfl, by rw [herror]; rfl⟩
  -- the sink holds all records, and it is flushed
  have hwrites : s.Writes c rs full :=
    ⟨hmet, hcontents, hspends.flushErrorsAhead_eq, hspends.flushes, hsaved⟩
  have hsink : full.flush.2 = sink := (congrArg Prod.snd hsaved).symm
  have hflush := full.flushErrorsAhead_flush
  rw [hwrites.flushErrors] at hflush
  rw [hsaved, ← hsink]
  cases hok : full.flush.1 with
  | error e =>
    rw [hok] at hflush
    exact Or.inl ⟨_, e, .flushing h hwrites hflush, rfl, rfl⟩
  | ok =>
    rw [hok] at hflush
    cases hcommit : c.nextReplacing.commitError with
    | some e => exact Or.inl ⟨_, e, .committing h hwrites hflush hcommit, rfl, rfl⟩
    | none => exact Or.inr ⟨full, ⟨h, hwrites, hflush, hcommit⟩, rfl, rfl⟩

/-! ## The whole sort -/

/-- **A chunk is sorted as a whole or not at all**, whatever its script says and whichever way of putting
records in order is taken.

* If the sort succeeds, it tells the number of the records that it has read, and the chunk, with all chunks
  in its cell, holds them in order.
* If the sort fails, it tells the first error that it has met, and every content is as it was.

The chunk is to be replaced once, unless the sort fails while the chunk is opened or read. The sink of the
replacement has been flushed once when it ends, after it had taken up all records; it has not been flushed
if writing them failed. -/
theorem sortBy_succeeds_or_fails (s : ChunkSorter) (cmp : Record → Record → Ordering)
    (hsort : IsSort cmp (s.arrange cmp)) (m : Memory) (hm : m.WellFormed) (i : Nat) (c : MemoryChunk)
    (hc : m.chunks[i]? = some c) :
    let result := s.sortBy cmp m i
    (∃ plan full rs, s.Succeeds cmp (m.content i) c plan full rs ∧ result.1 = .ok rs.length ∧
        (∀ j, result.2.content j =
          if m.sharesCell i j then encode s.delimiter rs else m.content j) ∧
        result.2.timesReplaced i = m.timesReplaced i + 1 ∧
        result.2.endedSinks i = full.flush.2 :: m.endedSinks i ∧ full.flush.2.flushes = 1) ∨
      ∃ phase e sinks, s.Fails cmp (m.content i) c phase e sinks ∧ result.1 = .error e ∧
        (∀ j, result.2.content j = m.content j) ∧
        result.2.timesReplaced i = m.timesReplaced i + phase.replacements ∧
        result.2.endedSinks i = sinks ++ m.endedSinks i ∧
        ∀ sink ∈ sinks, sink.flushes = phase.flushes := by
  intro result
  have hopened : (m.setChunk i c.noteOpening).chunks[i]? = some c.noteOpening :=
    Memory.getElem?_setChunk_self hc
  have hsame : ∀ j, (m.setChunk i c.noteOpening).content j = m.content j :=
    Memory.content_setChunk hc c.later_noteOpening.cell
  rw [show result = s.sortBy cmp m i from rfl, sortBy, Memory.timesReplaced_of_chunk hc,
    Memory.endedSinks_of_chunk hc]
  rcases load_fails_or_reads hsort hc with ⟨phase, e, hfails, hnone, hload⟩ |
    ⟨plan, loaded, hreads, hload⟩ <;> rw [hload] <;> dsimp only
  · refine Or.inr ⟨phase, e, [], hfails, rfl, hsame, ?_, ?_, hfails.flushes⟩
    · rw [Memory.timesReplaced_of_chunk hopened, hnone]
      rfl
    · rw [Memory.endedSinks_of_chunk hopened]
      rfl
  obtain ⟨rs, hrs⟩ : ∃ rs, rs = s.arrange cmp loaded := ⟨_, rfl⟩
  rw [← hrs] at hreads ⊢
  have hlater := c.noteOpening.later_noteSaving s.delimiter rs
  have hreplaced : ((m.setChunk i c.noteOpening).setChunk i
      (c.noteOpening.noteSaving s.delimiter rs)).chunks[i]? =
        some (c.noteOpening.noteSaving s.delimiter rs) := Memory.getElem?_setChunk_self hopened
  have hsame' : ∀ j, ((m.setChunk i c.noteOpening).setChunk i
      (c.noteOpening.noteSaving s.delimiter rs)).content j = m.content j := by
    intro j
    rw [Memory.content_setChunk hopened hlater.cell, hsame]
  rcases save_fails_or_succeeds hreads with ⟨phase, e, hfails, hone, hsave⟩ |
    ⟨full, hsucceeds, hsink, hsave⟩
  · rw [save_of_some hopened hsave]
    refine Or.inr ⟨phase, e, _, hfails, rfl, hsame', ?_, ?_, hfails.flushes⟩
    · rw [Memory.timesReplaced_of_chunk hreplaced, hone]
      rfl
    · rw [Memory.endedSinks_of_chunk hreplaced]
      rfl
  · rw [save_of_none hopened hsave]
    have hwhole := (Memory.later_setChunk hc c.later_noteOpening).trans
      (Memory.later_setChunk hopened hlater)
    have hstored := (Memory.chunks_setContent _ i (encode s.delimiter rs)).symm ▸ hreplaced
    refine Or.inl ⟨plan, full, rs, hsucceeds, rfl, ?_, ?_, ?_, hsucceeds.writes.flushes_flush⟩
    · intro j
      rw [Memory.content_setContent (hwhole.wellFormed hm), hwhole.sharesCell_eq, hsame']
    · rw [Memory.timesReplaced_of_chunk hstored]
      rfl
    · rw [Memory.endedSinks_of_chunk hstored, hsink]
      rfl

/-- A chunk that is read with an interruption and can be written, but whose replacement cannot be
committed: the sort tells so, the chunk keeps its content, and the sink has taken up the records in order and
has been flushed. -/
theorem sortBy_succeeds_or_fails_uncommitted :
    let m := ({} : Memory).add [98, 10, 97]
      [.serve [.upTo 1, .fail (.reported .interrupted "again")]]
      [{ plan := [.upTo 2], commitError := some (.system .busy) }]
    let result := ({} : ChunkSorter).sortBy Record.byteOrder m 0
    result.1 = .error (.system .busy) ∧ result.2.content 0 = [98, 10, 97] ∧
      result.2.timesReplaced 0 = 1 ∧ (result.2.endedSinks 0).map (·.flushes) = [1] := by
  intro m result
  have hwell : m.WellFormed := Memory.wellFormed_empty.add _ _ _
  rcases sortBy_succeeds_or_fails {} Record.byteOrder isSort_sortRecords m hwell 0 _ rfl with
    ⟨plan, full, rs, hsucceeds, -⟩ |
      ⟨phase, e, sinks, hfails, herror, hcontent, hreplaced, hsinks, hflushes⟩
  · exact absurd hsucceeds.committed (by decide)
  -- no other phase can fail
  cases hfails with
  | opening refused => contradiction
  | reading opening met =>
    obtain rfl := Opening.serve.inj opening
    contradiction
  | writing reads saved met => contradiction
  | flushing reads writes met => contradiction
  | committing reads writes flushed refused =>
    obtain rfl : StreamError.system .busy = e := Option.some.inj refused
    refine ⟨herror, hcontent 0, hreplaced, ?_⟩
    rw [show result.2.endedSinks 0 = _ from hsinks]
    exact congrArg (fun count => [count]) writes.flushes_flush

end ChunkSorter

end RecordSort
