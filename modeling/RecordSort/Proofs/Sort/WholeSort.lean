import RecordSort.Proofs.Merge.SortedMerge
import RecordSort.Proofs.Sort.InPlace

/-! # The whole sort

If nothing fails for good, sorting chunks of a memory into an output writes the stable sort of all their
records, taken chunk by chunk, and leaves every chunk with its records in order. Reads and writes may be
short or interrupted, chunks may share cells, and the workers may take their steps in any order.

* **`MemoryChunk.Reliable`** — a chunk none of whose operations fails for good.
* **`noFailure_runSchedule`** — no sort of a reliable chunk fails.
* **`inOrder_sortChunksIn`** — what the sort of reliable chunks comes to.
* **`openChunks_of_reliable`** — all reliable chunks can be opened, and their records come out.
* **`mergeInto_of_isSorted`** — what a merge of records in order writes.
* **`sortIn_of_reliable`** — the outcome, the output and the chunks after a whole sort. -/

namespace RecordSort

/-! ## Reliable chunks -/

namespace MemoryChunk

/-- **None of the operations of the chunk fails for good**: every opening is served with short or
interrupted transfers at worst, and every replacement is written, flushed and committed. -/
structure Reliable (c : MemoryChunk) : Prop where
  openings : ∀ o ∈ c.openings, ∃ plan, o = .serve plan ∧ Harmless plan
  replacings : ∀ r ∈ c.replacings,
    Harmless r.plan ∧ (∀ e, Transfer.fail e ∉ r.flushPlan) ∧ r.commitError = none

variable {c c' : MemoryChunk}

/-- A reliable chunk stays reliable. -/
theorem Reliable.later (h : c.Reliable) (hlater : c.Later c') : c'.Reliable where
  openings o ho := h.openings o (hlater.openings.subset ho)
  replacings r hr := h.replacings r (hlater.replacings.subset hr)

/-- A reliable chunk can be opened. -/
theorem Reliable.exists_plan (h : c.Reliable) :
    ∃ plan, c.nextOpening = .serve plan ∧ Harmless plan := by
  rw [nextOpening, List.headD_eq_head?_getD]
  cases hhead : c.openings.head? with
  | none => exact ⟨[], rfl, harmless_nil⟩
  | some o => exact h.openings o (List.mem_of_mem_head? hhead)

/-- Records can be saved to a reliable chunk. -/
theorem Reliable.saveError?_eq_none (h : c.Reliable) (d : UInt8) (rs : List Record) :
    c.saveError? d rs = none := by
  have hnext : Harmless c.nextReplacing.plan ∧ (∀ e, Transfer.fail e ∉ c.nextReplacing.flushPlan) ∧
      c.nextReplacing.commitError = none := by
    rw [nextReplacing, List.headD_eq_head?_getD]
    cases hhead : c.replacings.head? with
    | none => exact ⟨harmless_nil, fun e => List.not_mem_nil, rfl⟩
    | some r => exact h.replacings r (List.mem_of_mem_head? hhead)
  obtain ⟨hplan, hflush, hcommit⟩ := hnext
  have hsaved : (saveRecords d rs c.nextSink).1 = .ok () := saveRecords_of_harmless hplan hflush
  rw [saveError?, hsaved]
  exact hcommit

end MemoryChunk

/-- A worker **has met no failure**: neither has it ended with an error nor will it. -/
def Progression.Untroubled : MemoryProgression → Prop
  | .staged commitError filled _ => MemoryChunk.endError? commitError filled.1 = none
  | .ended (.error _) => False
  | .waiting | .loaded _ | .ended (.ok _) => True

/-- All chunks of a list exist and are reliable. -/
def Memory.AllReliable (m : Memory) (chunks : List Nat) : Prop :=
  ∀ i ∈ chunks, ∃ c, m.chunks[i]? = some c ∧ c.Reliable

section Whole

variable {s : Sorter} {cmp : Record → Record → Ordering} {m m' : Memory} {chunks : List Nat}

/-- Reliable chunks can be sorted, if no two different records of one of them are equal. -/
theorem Memory.AllReliable.sortable (h : m.AllReliable chunks) (hm : m.WellFormed)
    (hties : ∀ i ∈ chunks, NoTies cmp (decode s.delimiter (m.content i))) :
    Sortable s.delimiter cmp m chunks where
  wellFormed := hm
  chunk i hi := by
    obtain ⟨c, hc, -⟩ := h i hi
    exact ⟨c, hc⟩
  reads i hi c hc plan hplan := by
    obtain ⟨c', hc', hreliable⟩ := h i hi
    rw [hc, Option.some.injEq] at hc'
    obtain ⟨plan', hserve, hharmless⟩ := hreliable.openings _ (hc' ▸ hplan)
    rw [Opening.serve.inj hserve]
    exact hharmless.upTo_zero_not_mem
  noTies := hties

namespace Sorter

/-! ## The sort of the chunks -/

/-- **No step of a worker fails** on a reliable chunk. -/
theorem untroubled_stepWorker (hchunks : m.AllReliable chunks) (hlater : m.Later m') {i : Nat}
    (hi : i ∈ chunks) {progress : MemoryProgression} (h : progress.Untroubled) :
    (s.stepWorker cmp m' i progress).1.Untroubled := by
  obtain ⟨c₀, hc₀, hreliable⟩ := hchunks i hi
  obtain ⟨c, hc, hclater⟩ := hlater.exists_chunk hc₀
  have hreliable := hreliable.later hclater
  cases progress with
  | waiting =>
    obtain ⟨plan, hopening, hplan⟩ := hreliable.exists_plan
    rw [stepWorker, ChunkSorter.load_of_harmless hc hopening hplan]
    trivial
  | loaded rs =>
    rw [stepWorker, ChunkSorter.stage_eq hc]
    exact hreliable.saveError?_eq_none _ _
  | staged commitError filled count =>
    rw [stepWorker, Memory.conclude_of_none hc h]
    trivial
  | ended outcome => exact h

/-- No worker has met a failure. -/
def NoFailure (w : MemoryWorkshop) : Prop := ∀ worker ∈ w.workers, worker.2.Untroubled

/-- **No sort of a reliable chunk fails**, whatever the schedule says. -/
theorem noFailure_runSchedule [Std.TransCmp cmp] (hchunks : m.AllReliable chunks)
    (hm : Sortable s.delimiter cmp m chunks) (hsort : IsSort cmp (s.arrange cmp))
    (schedule : List Nat) : NoFailure (s.runSchedule cmp (openWorkshop m chunks) schedule) := by
  have hrun : SortsInPlace s.delimiter cmp m chunks
      (s.runSchedule cmp (openWorkshop m chunks) schedule) ∧
        NoFailure (s.runSchedule cmp (openWorkshop m chunks) schedule) := by
    refine @runSchedule_induction _ _ _ _ s cmp
      (fun w => SortsInPlace s.delimiter cmp m chunks w ∧ NoFailure w) ?_ _ ⟨?_, ?_⟩ schedule
    · intro w k i progress hk h
      obtain ⟨hplace, hno⟩ := h
      refine ⟨hplace.step hm hsort hk, ?_⟩
      have hworker := List.mem_of_getElem? hk
      intro worker hmem
      rcases List.mem_or_eq_of_mem_set hmem with hmem | rfl
      · exact hno worker hmem
      · exact untroubled_stepWorker hchunks hplace.later (hplace.workers _ hworker).1
          (hno _ hworker)
    · exact SortsInPlace.openWorkshop s.delimiter cmp m chunks
    · intro worker hmem
      obtain ⟨i, -, rfl⟩ := List.mem_map.1 hmem
      trivial
  exact hrun.2

/-- **After the first phase** no failure is told, and the records of every chunk are in order. -/
theorem inOrder_sortChunksIn [Std.TransCmp cmp] (s : Sorter) (hsort : IsSort cmp (s.arrange cmp))
    (hm : m.WellFormed) (hchunks : m.AllReliable chunks)
    (hties : ∀ i ∈ chunks, NoTies cmp (decode s.delimiter (m.content i))) (schedule : List Nat) :
    let sorted := s.sortChunksIn cmp schedule m chunks
    m.Later sorted.2 ∧ firstFailure 0 sorted.1 = none ∧
      ∀ i ∈ chunks, sorted.2.content i = inOrder s.delimiter cmp (m.content i) := by
  intro sorted
  have hsortable := hchunks.sortable hm hties
  have hplace : SortsInPlace s.delimiter cmp m chunks (s.atEnd cmp schedule m chunks) :=
    SortsInPlace.runSchedule hsortable hsort _
  have hno : NoFailure (s.atEnd cmp schedule m chunks) :=
    noFailure_runSchedule hchunks hsortable hsort _
  refine ⟨hplace.later, ?_, ?_⟩
  · rw [firstFailure_eq_none_iff]
    intro o ho
    obtain ⟨k, hk⟩ := List.mem_iff_getElem?.1 ho
    obtain ⟨i, hi⟩ := getElem?_sortChunksIn.1 hk
    cases o with
    | error e => exact (hno _ (List.mem_of_getElem? hi)).elim
    | ok n => exact ⟨n, rfl⟩
  -- the worker of every chunk has ended well
  · intro i hi
    obtain ⟨k, hk⟩ := List.mem_iff_getElem?.1 hi
    obtain ⟨outcome, houtcome⟩ := s.ended_atEnd cmp schedule m hk
    have hmem := List.mem_of_getElem? houtcome
    have hfits := (hplace.workers _ hmem).2
    cases outcome with
    | error e => exact (hno _ hmem).elim
    | ok n => exact hfits.2

/-! ## The merge -/

/-- Readers whose records are lists in order have their records in order. -/
theorem isSorted_of_map_records [Std.TransCmp cmp] {readers : List RecordReader} {d : UInt8}
    (h : readers.map (fun r => (drain r).records) =
      chunks.map fun i => sortRecords cmp (decode d (m.content i))) :
    ∀ r ∈ readers, IsSorted cmp (drain r).records := by
  intro r hr
  have hmem : (drain r).records ∈ readers.map fun r => (drain r).records := List.mem_map_of_mem hr
  rw [h] at hmem
  obtain ⟨i, -, hi⟩ := List.mem_map.1 hmem
  rw [← hi]
  exact isSorted_sortRecords _

/-- **Reliable chunks can be opened**, and the records of their contents come out of the readers. -/
theorem openChunks_of_reliable (s : Sorter) (hchunks : m.AllReliable chunks) (hlater : m.Later m')
    (index : Nat) :
    ∃ readers, (s.openChunks index m' chunks).1 = .ok readers ∧
      (∀ j, (s.openChunks index m' chunks).2.content j = m'.content j) ∧
      (∀ r ∈ readers, (drain r).outcome = .ok ()) ∧
      readers.map (fun r => (drain r).records) =
        chunks.map fun i => decode s.delimiter (m'.content i) := by
  induction chunks generalizing m' index with
  | nil => exact ⟨[], rfl, fun _ => rfl, fun r hr => by simp at hr, rfl⟩
  | cons i rest ih =>
    obtain ⟨c₀, hc₀, hreliable⟩ := hchunks i List.mem_cons_self
    obtain ⟨c, hc, hclater⟩ := hlater.exists_chunk hc₀
    obtain ⟨plan, hopening, hplan⟩ := (hreliable.later hclater).exists_plan
    have hopen : ChunkStore.openRead m' i = (_, _) := Memory.openRead_eq hc
    rw [hopening] at hopen
    obtain ⟨hrecords, hok⟩ := (s.chunkSorter.fresh_reader
      { data := m'.content i, plan := plan }).drain_of_harmless hplan
    have hsame := Memory.content_setChunk hc c.later_noteOpening.cell
    have hrest : m.AllReliable rest := by
      intro j hj
      exact hchunks j (List.mem_cons_of_mem _ hj)
    obtain ⟨readers, hopened, hcontent, hoks, hmap⟩ :=
      ih hrest (hlater.trans (Memory.later_setChunk hc c.later_noteOpening)) (index + 1)
    rw [openChunks, hopen]
    dsimp only
    rw [hopened]
    refine ⟨_, rfl, ?_, ?_, ?_⟩
    · intro j
      rw [hcontent j, hsame j]
    · intro r hr
      rcases List.mem_cons.1 hr with rfl | hr
      · exact hok
      · exact hoks r hr
    · rw [List.map_cons, List.map_cons, hmap, hrecords]
      simp only [hsame]
      rfl

/-- **A merge of readers in order** writes the stable sort of all their records to a harmless output. -/
theorem mergeInto_of_isSorted [Std.TransCmp cmp] (s : Sorter) {readers : List RecordReader}
    {output : ByteSink} (hok : ∀ r ∈ readers, (drain r).outcome = .ok ())
    (hsorted : ∀ r ∈ readers, IsSorted cmp (drain r).records) (houtput : Harmless output.plan)
    (hflush : ∀ e, Transfer.fail e ∉ output.flushPlan) :
    let records := sortRecords cmp (readers.flatMap fun r => (drain r).records)
    (s.mergeInto cmp readers output).1 = .ok records.length ∧
      (s.mergeInto cmp readers output).2.contents =
        output.contents ++ encode s.delimiter records := by
  intro records
  obtain ⟨hrecords, hdrained⟩ := Merger.drain_ofFeeds hok hsorted
  obtain ⟨w, hw⟩ : ∃ w : RecordWriter, w = { sink := output, delimiter := s.delimiter } := ⟨_, rfl⟩
  have hharmless : Harmless w.sink.plan := hw ▸ houtput
  have hwritten : (w.writeRecords records).1 = .ok () :=
    RecordWriter.writeRecords_of_harmless hharmless (Or.inl (hw ▸ rfl))
  have hspends := w.spends_writeRecords records
  obtain ⟨w', hw'⟩ : ∃ w', w.writeRecords records = (.ok (), w') := ⟨_, Prod.ext hwritten rfl⟩
  have hcontents := RecordWriter.contents_of_writeRecords hw'
  rw [hw'] at hspends
  -- the records of the merge are poured into the writer, which is flushed afterwards
  obtain ⟨hwriter, houtcome⟩ := w.pour_eq (Merger.ofFeeds cmp readers)
  rw [hrecords, hw'] at hwriter
  rw [hrecords, hw', hdrained] at houtcome
  have hflushed : w'.sink.flush.1 = .ok () := by
    refine ByteSink.flush_of_harmless ?_
    rw [hspends.sink.flushPlan, hw]
    exact hflush
  rw [mergeInto, RecordWriter.merge, ← hw]
  rcases hpour : w.pour (Merger.ofFeeds cmp readers) with ⟨outcome, w'', merger⟩
  rw [hpour] at hwriter houtcome
  obtain rfl : w'' = w' := hwriter
  obtain rfl : outcome = .ok records.length := houtcome
  have hsink : w''.sink.flush.2.contents = output.contents ++ encode s.delimiter records := by
    rw [ByteSink.contents_flush, hcontents, hw]
  dsimp only
  rcases hf : w''.sink.flush with ⟨e | _, sink⟩ <;> rw [hf] at hflushed hsink
  · contradiction
  · exact ⟨rfl, hsink⟩

/-! ## The result -/

/-- **The whole sort of reliable chunks**: under a total preorder that has no ties within a chunk, and
whatever the schedule says, the sort succeeds, writes the stable sort of the records of all chunks, tells
their number, and leaves every chunk with its own records in order. How the records of a chunk are put in
order may be any way that gives a permutation in order. -/
theorem sortIn_of_reliable (s : Sorter) (cmp : Record → Record → Ordering) [Std.TransCmp cmp]
    (hsort : IsSort cmp (s.arrange cmp)) (m : Memory) (hm : m.WellFormed) (chunks : List Nat)
    (hchunks : m.AllReliable chunks)
    (hties : ∀ i ∈ chunks, NoTies cmp (decode s.delimiter (m.content i))) (output : ByteSink)
    (houtput : Harmless output.plan) (hflush : ∀ e, Transfer.fail e ∉ output.flushPlan)
    (schedule : List Nat) :
    let records := sortRecords cmp (chunks.flatMap fun i => decode s.delimiter (m.content i))
    let result := s.sortIn cmp schedule m chunks output
    result.outcome = .ok records.length ∧
      result.output.contents = output.contents ++ encode s.delimiter records ∧
      ∀ i ∈ chunks, result.store.content i =
        encode s.delimiter (sortRecords cmp (decode s.delimiter (m.content i))) := by
  intro records result
  obtain ⟨hlater, hnone, hcontent⟩ := s.inOrder_sortChunksIn hsort hm hchunks hties schedule
  obtain ⟨readers, hopened, hsame, hoks, hmap⟩ := s.openChunks_of_reliable hchunks hlater 0
  -- the readers give the records of the chunks in order
  have hlists : readers.map (fun r => (drain r).records) =
      chunks.map fun i => sortRecords cmp (decode s.delimiter (m.content i)) := by
    rw [hmap]
    refine List.map_congr_left ?_
    intro i hi
    rw [hcontent i hi, decode_inOrder]
  obtain ⟨hcount, hwritten⟩ :=
    s.mergeInto_of_isSorted hoks (isSorted_of_map_records hlists) houtput hflush
  have hall : sortRecords cmp (readers.flatMap fun r => (drain r).records) = records := by
    rw [List.flatMap_def, hlists, ← List.flatMap_def]
    exact sortRecords_flatMap chunks fun i => decode s.delimiter (m.content i)
  rw [hall] at hcount hwritten
  have hresult : result = _ := mergeChunks_of_readers hnone (Prod.ext hopened rfl)
  rw [hresult, hcount]
  refine ⟨rfl, hwritten, ?_⟩
  intro i hi
  exact (hsame i).trans (hcontent i hi)

/-- A memory whose second chunk shares the content of the first one. The first chunk is read and written
with short transfers and an interruption. -/
def sharingMemory : Memory :=
  ((({} : Memory).add [98, 49, 10, 97, 49]
      [.serve [.upTo 1, .fail (.reported .interrupted "interrupted")]] [{ plan := [.upTo 2] }]).share
    0 [] []).add [97, 50, 10, 10] [] []

/-- Records with the same first byte come by chunk, also where two workers sort one content. -/
theorem sortIn_of_reliable_sharingMemory :
    (({} : Sorter).sortIn Record.firstByteOrder [1, 0, 2, 0] sharingMemory [0, 1, 2]
        { plan := [.upTo 1] }).output.contents =
      encode newline [[], [97, 49], [97, 49], [97, 50], [98, 49], [98, 49]] := by
  have hwell : sharingMemory.WellFormed :=
    ((Memory.wellFormed_empty.add _ _ _).share _ _ _).add _ _ _
  have hreliable : sharingMemory.AllReliable [0, 1, 2] := by
    intro i hi
    simp only [List.mem_cons, List.not_mem_nil, or_false] at hi
    rcases hi with rfl | rfl | rfl
    · refine ⟨_, rfl, ?_, ?_⟩
      · intro o ho
        obtain rfl := List.mem_singleton.1 ho
        exact ⟨_, rfl, by decide⟩
      · intro r hr
        obtain rfl := List.mem_singleton.1 hr
        exact ⟨by decide, by simp, rfl⟩
    · exact ⟨_, rfl, by simp, by simp⟩
    · exact ⟨_, rfl, by simp, by simp⟩
  have hties : ∀ i ∈ [0, 1, 2],
      NoTies Record.firstByteOrder (decode newline (sharingMemory.content i)) := by
    unfold NoTies
    decide
  have hrecords : ([0, 1, 2].flatMap fun i => decode newline (sharingMemory.content i)) =
      [[98, 49], [97, 49], [98, 49], [97, 49], [97, 50], []] := by decide
  refine (sortIn_of_reliable {} Record.firstByteOrder isSort_sortRecords sharingMemory hwell
    [0, 1, 2] hreliable hties { plan := [.upTo 1] } (by decide) (by simp) [1, 0, 2, 0]).2.1.trans ?_
  rw [hrecords]
  simp +decide [sortRecords, List.mergeSort]

end Sorter

end Whole

end RecordSort
