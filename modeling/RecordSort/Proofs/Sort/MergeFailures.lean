import RecordSort.Proofs.Merge.BrokenOff
import RecordSort.Proofs.Sort.SortedChunks

/-! # Failures while sorted chunks are merged

Once all chunks are sorted and opened, reads may still fail, and so may the output. Whatever happens, the
chunks stay sorted, and what the output has taken up is a first part of what it would have taken up if
nothing had failed. The sort succeeds only if nothing has failed, and otherwise tells the one error that it
has met.

* **`readers_of_openChunks`** — what the readers have before them.
* **`drain_twin_ofFeeds`** — the merge of the records laid down in advance.
* **`mergeInto_eq`** — a merge, and the flush of the output that follows it.
* **`mergeChunks_unscripted`** — the merge in which nothing fails.
* **`sortIn_of_merge_failures`** — the whole sort. -/

namespace RecordSort

/-- **No reader is cut short** by a merge if no source ends before its data do. -/
theorem RecordWriter.forall_uncut_of_merge {w : RecordWriter} {cmp : Record → Record → Ordering}
    {readers : List RecordReader} (hfresh : ∀ r ∈ readers, r.Fresh)
    (hends : ∀ r ∈ readers, r.source.EndsWithData r.refill) :
    ∀ r ∈ (w.merge cmp readers).2.2, r.Uncut := by
  have hasks := RecordReader.advances_asks.pour (Merger.ofFeeds cmp readers) w
  intro r' hr'
  obtain ⟨r, hr, given, hgiven⟩ := exists_mem_of_forall₂ hasks hr'
  exact RecordReader.uncut_of_endsWithData (hfresh r hr) (hends r hr) hgiven

namespace Sorter

variable {s : Sorter} {cmp : Record → Record → Ordering} {m : Memory} {chunks : List Nat}

/-- **The readers of opened chunks** have the records of the contents before them, and no content changes. -/
theorem readers_of_openChunks {index : Nat} {readers : List RecordReader} {store : Memory}
    (h : s.openChunks index m chunks = (.ok readers, store)) :
    (∀ j, store.content j = m.content j) ∧ (∀ r ∈ readers, r.Fresh) ∧
      List.Forall₂ RecordReader.Supplies readers
        (chunks.map fun i => decode s.delimiter (m.content i)) := by
  induction chunks generalizing m index readers with
  | nil =>
    obtain ⟨hreaders, rfl⟩ := Prod.mk.inj h
    obtain rfl := Except.ok.inj hreaders
    exact ⟨fun _ => rfl, fun r hr => absurd hr List.not_mem_nil, .nil⟩
  | cons i rest ih =>
    cases hc : m.chunks[i]? with
    | none =>
      have herror : (ChunkStore.openRead m i).1 = .error (.system .noEntry) := by
        show (m.openRead i).1 = _
        rw [Memory.openRead, hc]
      rw [openChunks_of_error herror] at h
      simp at h
    | some c =>
      have hopen : ChunkStore.openRead m i = (_, _) := Memory.openRead_eq hc
      cases hopening : c.nextOpening with
      | refuse e =>
        rw [hopening] at hopen
        rw [openChunks_of_error (congrArg Prod.fst hopen)] at h
        simp at h
      | serve plan =>
        rw [hopening] at hopen
        rw [openChunks_of_ok (congrArg Prod.fst hopen), hopen] at h
        dsimp only at h
        have hsame := Memory.content_setChunk hc c.later_noteOpening.cell
        rcases hrest : s.openChunks (index + 1) (m.setChunk i c.noteOpening) rest with
          ⟨e | others, store'⟩ <;> rw [hrest] at h
        · simp [Except.map] at h
        obtain ⟨hreaders, rfl⟩ := Prod.mk.inj h
        obtain rfl := Except.ok.inj hreaders
        obtain ⟨hstore, hfresh, hsupplies⟩ := ih hrest
        have hfirst := s.chunkSorter.fresh_reader { data := m.content i, plan := plan }
        refine ⟨fun j => (hstore j).trans (hsame j), ?_, ?_⟩
        · rw [List.forall_mem_cons]
          exact ⟨hfirst, hfresh⟩
        · simp only [hsame] at hsupplies
          refine .cons ⟨hfirst.inRange, ?_⟩ hsupplies
          rw [hfirst.unread_eq]
          rfl

/-- **The merge of records laid down in advance** hands out the stable sort of all of them. -/
theorem drain_twin_ofFeeds [Std.TransCmp cmp] {readers : List RecordReader}
    {lists : List (List Record)} (hlength : readers.length = lists.length)
    (hsorted : ∀ rs ∈ lists, IsSorted cmp rs) :
    (drain ((Merger.ofFeeds cmp readers).twin lists)).records = sortRecords cmp lists.flatten := by
  have htwin : (Merger.ofFeeds cmp readers).twin lists =
      Merger.ofFeeds cmp (lists.map Replay.ofRecords) := by
    rw [Merger.twin, Merger.ofFeeds, Merger.ofFeeds, List.length_map, hlength]
  have hok : ∀ f ∈ lists.map Replay.ofRecords, (drain f).outcome = .ok () := by
    intro f hf
    obtain ⟨rs, -, rfl⟩ := List.mem_map.1 hf
    rw [drain_ofRecords]
  have hinOrder : ∀ f ∈ lists.map Replay.ofRecords, IsSorted cmp (drain f).records := by
    intro f hf
    obtain ⟨rs, hrs, rfl⟩ := List.mem_map.1 hf
    rw [drain_ofRecords]
    exact hsorted rs hrs
  rw [htwin, (Merger.drain_ofFeeds hok hinOrder).1, List.flatMap_map]
  simp only [drain_ofRecords]
  rw [List.flatMap_id']

/-- **A merge that does not fail is followed by one flush**, and a merge that fails by none. -/
theorem mergeInto_eq (s : Sorter) (cmp : Record → Record → Ordering) (readers : List RecordReader)
    (output : ByteSink) :
    let merged := ({ sink := output, delimiter := s.delimiter } : RecordWriter).merge cmp readers
    s.mergeInto cmp readers output = match merged.1 with
      | .error e => (.error e, merged.2.1.sink)
      | .ok count => (merged.2.1.sink.flush.1.map fun _ => count, merged.2.1.sink.flush.2) := by
  intro merged
  rw [mergeInto, show RecordWriter.merge _ cmp readers = merged from rfl]
  rcases merged with ⟨e | count, w, feeds⟩
  · rfl
  · dsimp only
    rcases w.sink.flush with ⟨e | _, sink⟩ <;> rfl

/-- **What a merge writes** is a first part of the stable sort of the records before the readers, and all of
it if nothing fails. The error that it tells is the only one that it has met. -/
theorem merge_of_supplies [Std.TransCmp cmp] {readers : List RecordReader}
    {lists : List (List Record)} {d : UInt8} {output : ByteSink}
    (hsupplies : List.Forall₂ RecordReader.Supplies readers lists)
    (hsorted : ∀ rs ∈ lists, IsSorted cmp rs)
    (huncut : ∀ r ∈ (({ sink := output, delimiter := d } : RecordWriter).merge cmp readers).2.2,
      r.Uncut) :
    let merged := ({ sink := output, delimiter := d } : RecordWriter).merge cmp readers
    let records := sortRecords cmp lists.flatten
    output.Spends merged.2.1.sink ∧
      Meets (errorOf merged.1) (Merger.errorsAhead readers ++ [output.errorsAhead])
        (Merger.errorsAhead merged.2.2 ++ [merged.2.1.sink.errorsAhead]) ∧
      ∃ part, merged.2.1.sink.contents = output.contents ++ part ∧ part <+: encode d records ∧
        ∀ n, merged.1 = .ok n → n = records.length ∧ part = encode d records := by
  intro merged records
  obtain ⟨w, hw⟩ : ∃ w : RecordWriter, w = { sink := output, delimiter := d } := ⟨_, rfl⟩
  have hsplit : w.policy = .split := hw ▸ rfl
  have hmerged : merged = ((w.pour (Merger.ofFeeds cmp readers)).1,
      (w.pour (Merger.ofFeeds cmp readers)).2.1, (w.pour (Merger.ofFeeds cmp readers)).2.2.feeds) := by
    rw [hw]
    rfl
  have hmeets := RecordWriter.meets_pour (m := Merger.ofFeeds cmp readers) hsplit
  obtain ⟨rs, hprefix, hwriter, hall⟩ := RecordWriter.pour_twin (w := w)
    (m := Merger.ofFeeds cmp readers) hsupplies (by rw [hw]; exact huncut)
  rw [drain_twin_ofFeeds (List.Forall₂.length_eq hsupplies) hsorted] at hprefix hall
  have hspends := w.spends_writeRecords rs
  have hencode : encode d rs <+: encode d records := by
    obtain ⟨more, hmore⟩ := hprefix
    exact ⟨encode d more, by rw [← encode_append, hmore]⟩
  rw [hmerged]
  rw [← hwriter, hw] at hspends
  rw [hw] at hmeets
  refine ⟨hw ▸ hspends.sink, hw ▸ hmeets, ?_⟩
  dsimp only
  rw [hwriter]
  rcases hwritten : w.writeRecords rs with ⟨e | _, w'⟩
  · obtain ⟨part, rest, hpart, -, hcontents⟩ := RecordWriter.cutShort_of_writeRecords hwritten
    rw [hw] at hpart hcontents
    refine ⟨part, hcontents, List.IsPrefix.trans ⟨rest, hpart.symm⟩ hencode, ?_⟩
    intro n hn
    have hfine := (hall n hn).2.2
    rw [hwritten] at hfine
    contradiction
  · have hcontents := RecordWriter.contents_of_writeRecords hwritten
    rw [hw] at hcontents
    refine ⟨encode d rs, hcontents, hencode, ?_⟩
    intro n hn
    obtain ⟨rfl, rfl, -⟩ := hall n hn
    exact ⟨rfl, rfl⟩

/-- **A merge and the flush that follows it.** The output is flushed once all is written, and not if a read
or a write has failed; the error that is told is the only one that has been met. -/
theorem mergeInto_of_supplies [Std.TransCmp cmp] (s : Sorter) {readers : List RecordReader}
    {lists : List (List Record)} {output : ByteSink}
    (hsupplies : List.Forall₂ RecordReader.Supplies readers lists)
    (hsorted : ∀ rs ∈ lists, IsSorted cmp rs)
    (huncut : ∀ r ∈ (({ sink := output, delimiter := s.delimiter } : RecordWriter).merge cmp
      readers).2.2, r.Uncut) :
    let merged := ({ sink := output, delimiter := s.delimiter } : RecordWriter).merge cmp readers
    let full := merged.2.1.sink
    let ended := s.mergeInto cmp readers output
    let records := sortRecords cmp lists.flatten
    ∃ part met, part <+: encode s.delimiter records ∧ ended.2.contents = output.contents ++ part ∧
      ended.1 = (match met with
        | none => .ok records.length
        | some e => .error e) ∧
      Meets met
        (Merger.errorsAhead readers ++ [output.errorsAhead, output.flushErrorsAhead])
        (Merger.errorsAhead merged.2.2 ++ [ended.2.errorsAhead, ended.2.flushErrorsAhead]) ∧
      full.flushes = output.flushes ∧
      (merged.1 = .ok records.length ∧ part = encode s.delimiter records ∧
          full.contents = output.contents ++ part ∧ met = errorOf full.flush.1 ∧
          ended.2 = full.flush.2 ∨
        ∃ e, merged.1 = .error e ∧ met = some e ∧ ended.2 = full) := by
  intro merged full ended records
  obtain ⟨hspends, hmeets, part, hcontents, hpart, hall⟩ :=
    merge_of_supplies hsupplies hsorted huncut
  have hended : ended = _ := s.mergeInto_eq cmp readers output
  have hoffers := hmeets.append_right [output.flushErrorsAhead]
  have hflushes : full.flushErrorsAhead = output.flushErrorsAhead := hspends.flushErrorsAhead_eq
  rw [List.append_assoc, List.append_assoc] at hoffers
  rw [show RecordWriter.merge _ cmp readers = merged from rfl] at hended hoffers hall
  refine ⟨part, ?_⟩
  cases hmerged : merged.1 with
  | error e =>
    rw [hmerged] at hended hoffers
    rw [hended]
    refine ⟨some e, hpart, hcontents, rfl, ?_, hspends.flushes, Or.inr ⟨e, rfl, rfl, rfl⟩⟩
    rw [show merged.2.1.sink.flushErrorsAhead = _ from hflushes]
    exact hoffers
  -- the flush is the last one that can fail
  | ok n =>
    obtain ⟨rfl, hwhole⟩ := hall n hmerged
    rw [hmerged] at hended hoffers
    rw [hended]
    have hflush := full.flushErrorsAhead_flush
    refine ⟨errorOf full.flush.1, hpart, ?_, ?_, ?_, hspends.flushes,
      Or.inl ⟨rfl, hwhole, hcontents, rfl, rfl⟩⟩
    · dsimp only
      rw [ByteSink.contents_flush]
      exact hcontents
    · dsimp only
      rw [show merged.2.1.sink = full from rfl]
      cases full.flush.1 <;> rfl
    · have hlast := ((Meets.of_eq_append hflush).append_left [full.errorsAhead]).append_left
        (Merger.errorsAhead merged.2.2)
      rw [hflushes] at hlast
      refine hoffers.trans ?_
      dsimp only
      rw [ByteSink.errorsAhead_flush]
      exact hlast

/-- **The merge of sorted chunks in which nothing fails** counts all their records and writes the stable sort of
them. -/
theorem mergeChunks_unscripted [Std.TransCmp cmp] (s : Sorter) (hm : m.WellFormed)
    (hchunks : ∀ i ∈ chunks, ∃ c, m.chunks[i]? = some c) {outcomes : List (Except StreamError Nat)}
    (hnone : firstFailure 0 outcomes = none)
    (hsorted : ∀ i ∈ chunks, IsSorted cmp (decode s.delimiter (m.content i))) :
    let calm := s.mergeChunks cmp chunks {} (outcomes, m.unscripted)
    let records := sortRecords cmp (chunks.flatMap fun i => decode s.delimiter (m.content i))
    calm.outcome = .ok records.length ∧ calm.output.contents = encode s.delimiter records := by
  intro calm records
  have hreliable := (Memory.restores_unscripted hm hchunks).reliable
  have hlater : m.unscripted.Later (outcomes, m.unscripted).2 := .refl _
  have hempty : ({} : ByteSink).Reliable := ⟨harmless_nil, fun _ => List.not_mem_nil⟩
  have hinOrder : ∀ i ∈ chunks, IsSorted cmp (decode s.delimiter (m.unscripted.content i)) := by
    simpa only [Memory.content_unscripted] using hsorted
  obtain ⟨hcount, hwhole, -⟩ := s.mergeChunks_of_inOrder hreliable hlater hnone hinOrder hempty
  simp only [Memory.content_unscripted] at hcount hwhole
  exact ⟨hcount, hwhole⟩

/-- **Failures while sorted chunks are merged**: all chunks have been sorted and opened, no reader is told
too early that there are no more bytes, and apart from that reads and the output may fail in any way.

* The chunks hold their records in order, whatever happens.
* The same run from there on in which nothing fails, `calm`, tells the number of all these records and
  writes their stable sort, `records`; the output has taken up a first part of that.
* If no error has been met the sort succeeds with the number of `records`; if one has been met the sort
  tells it, and it is the only one. Interrupted reads and writes are not among the errors, but an
  interrupted flush is.
* If every record has been read and written, the output has taken up all of `records`, and what follows is
  one flush; the error met is that of the flush, if it fails. If not, it is not flushed. -/
theorem sortIn_of_merge_failures (s : Sorter) (cmp : Record → Record → Ordering) [Std.TransCmp cmp]
    (hsort : IsSort cmp (s.arrange cmp)) (m : Memory) (hm : m.WellFormed) (chunks : List Nat)
    (hchunks : ∀ i ∈ chunks, ∃ c, m.chunks[i]? = some c) (schedule : List Nat) (output : ByteSink)
    (hok : ∀ o ∈ (s.sortChunksIn cmp schedule m chunks).1, ∃ n, o = .ok n)
    (readers : List RecordReader) (store : Memory)
    (hopened : s.openChunks 0 (s.sortChunksIn cmp schedule m chunks).2 chunks = (.ok readers, store))
    (huncut : ∀ r ∈ (({ sink := output, delimiter := s.delimiter } : RecordWriter).merge cmp
      readers).2.2, r.Uncut) :
    let sorted := s.sortChunksIn cmp schedule m chunks
    let merged := ({ sink := output, delimiter := s.delimiter } : RecordWriter).merge cmp readers
    let full := merged.2.1.sink
    let result := s.sortIn cmp schedule m chunks output
    let calm := s.mergeChunks cmp chunks {} (sorted.1, sorted.2.unscripted)
    let records := sortRecords cmp (chunks.flatMap fun i => decode s.delimiter (sorted.2.content i))
    (∀ i ∈ chunks, ∃ rs, result.store.content i = encode s.delimiter rs ∧ IsSorted cmp rs ∧
      (s.LoadsWhole cmp (openWorkshop m chunks) (schedule ++ oneByOne 0 chunks.length) →
        rs.Perm (decode s.delimiter (m.content i)))) ∧
    ∃ part met, calm.outcome = .ok records.length ∧
      calm.output.contents = encode s.delimiter records ∧ part <+: encode s.delimiter records ∧
      result.output.contents = output.contents ++ part ∧
      result.outcome = (match met with
        | none => .ok records.length
        | some e => .error (.merge e)) ∧
      Meets met
        (Merger.errorsAhead readers ++ [output.errorsAhead, output.flushErrorsAhead])
        (Merger.errorsAhead merged.2.2 ++
          [result.output.errorsAhead, result.output.flushErrorsAhead]) ∧
      full.flushes = output.flushes ∧
      (merged.1 = .ok records.length ∧ part = encode s.delimiter records ∧
          full.contents = output.contents ++ part ∧ met = errorOf full.flush.1 ∧
          result.output = full.flush.2 ∨
        ∃ e, merged.1 = .error e ∧ met = some e ∧ result.output = full) := by
  intro sorted merged full result calm records
  obtain ⟨hlater, hstore⟩ := exists_ordered_of_sortChunksIn hm hsort hchunks hok
  obtain ⟨hsame, -, hsupplies⟩ := readers_of_openChunks hopened
  have hnone : firstFailure 0 sorted.1 = none := firstFailure_eq_none_iff.2 hok
  have hinOrder : ∀ i ∈ chunks, IsSorted cmp (decode s.delimiter (sorted.2.content i)) := by
    intro i hi
    obtain ⟨rs, hcontent, hordered⟩ := hstore i hi
    rw [show sorted.2.content i = _ from hcontent, hordered.decode_encode]
    exact hordered.sorted
  have hlists : ∀ rs ∈ chunks.map fun i => decode s.delimiter (sorted.2.content i),
      IsSorted cmp rs := by
    intro rs hrs
    obtain ⟨i, hi, rfl⟩ := List.mem_map.1 hrs
    exact hinOrder i hi
  -- the run in which nothing fails
  have hexists : ∀ i ∈ chunks, ∃ c, sorted.2.chunks[i]? = some c := by
    intro i hi
    obtain ⟨c, hc⟩ := hchunks i hi
    obtain ⟨c', hc', -⟩ := hlater.exists_chunk hc
    exact ⟨c', hc'⟩
  obtain ⟨hcount, hwhole⟩ := s.mergeChunks_unscripted (hlater.wellFormed hm) hexists hnone hinOrder
  -- the run in which the readers and the output may fail
  obtain ⟨part, met, hpart, hcontents, houtcome, hmeets, hflushes, hends⟩ :=
    s.mergeInto_of_supplies hsupplies hlists huncut
  rw [← List.flatMap_def] at hpart houtcome hends
  have hresult : result = _ := mergeChunks_of_readers hnone hopened
  refine ⟨?_, part, met, hcount, hwhole, ?_⟩
  · intro i hi
    obtain ⟨rs, hcontent, hordered⟩ := hstore i hi
    refine ⟨rs, ?_, hordered.sorted, hordered.perm⟩
    rw [hresult]
    exact (hsame i).trans hcontent
  · rw [hresult, houtcome]
    refine ⟨hpart, hcontents, ?_, hmeets, hflushes, hends⟩
    cases met <;> rfl

/-- A chunk that is read with short transfers when it is sorted, and cannot be read to its end when it is
merged. -/
def lateMemory : Memory :=
  ({} : Memory).add [98, 10, 97]
    [.serve [.upTo 1], .serve [.upTo 2, .fail (.reported .timedOut "late")]] []

/-- The same chunk after it has been sorted. -/
def lateMemorySorted : Memory where
  cells := [[97, 10, 98, 10]]
  chunks := [{ cell := 0
               openings := [.serve [.upTo 2, .fail (.reported .timedOut "late")]]
               opened := 1
               replaced := 1
               sinks := [(saveRecords newline [[97], [98]] {}).2] }]

/-- The chunk is sorted and stays so. When it is merged one record is read and written before a read fails;
that error is told, and the output is not flushed. -/
theorem sortIn_of_merge_failures_lateMemory :
    let result := ({} : Sorter).sortIn Record.byteOrder [] lateMemory [0] {}
    result.outcome = .error (.merge (.reported .timedOut "late")) ∧
      result.output.contents = [97, 10] ∧ result.output.flushes = 0 ∧
      ∃ rs, result.store.content 0 = encode newline rs ∧ IsSorted Record.byteOrder rs := by
  intro result
  have hwell : lateMemory.WellFormed := Memory.wellFormed_empty.add _ _ _
  have hchunks : ∀ i ∈ [0], ∃ c, lateMemory.chunks[i]? = some c := by
    intro i hi
    obtain rfl := List.mem_singleton.1 hi
    exact ⟨_, rfl⟩
  have hrecords : ({} : Sorter).chunkSorter.arrange Record.byteOrder
      (decode ({} : Sorter).chunkSorter.delimiter (lateMemory.content 0)) = [[97], [98]] := by
    show sortRecords Record.byteOrder (decode newline (lateMemory.content 0)) = _
    rw [show decode newline (lateMemory.content 0) = [[98], [97]] by decide]
    simp +decide [sortRecords, List.mergeSort]
  have hfirst : ({} : Sorter).chunkSorter.sortBy Record.byteOrder lateMemory 0 =
      (.ok 2, lateMemorySorted) := by
    rw [ChunkSorter.sortBy, ChunkSorter.load_of_harmless rfl rfl (by decide)]
    dsimp only
    rw [hrecords]
    refine (ChunkSorter.save_of_none rfl ?_).trans rfl
    rw [MemoryChunk.saveError?, saveRecords_of_harmless (by decide) fun e => List.not_mem_nil]
    rfl
  have hsorted : ({} : Sorter).sortChunksIn Record.byteOrder [] lateMemory [0] =
      ([.ok 2], lateMemorySorted) := by
    rw [sortChunksIn_nil, sortChunks, hfirst]
    rfl
  have hok : ∀ o ∈ (({} : Sorter).sortChunksIn Record.byteOrder [] lateMemory [0]).1,
      ∃ n, o = .ok n := by
    rw [hsorted]
    intro o ho
    exact ⟨2, List.mem_singleton.1 ho⟩
  -- the chunk can be opened again, and its source does not end too early
  let r := ({} : Sorter).chunkSorter.reader
    { data := [97, 10, 98, 10], plan := [.upTo 2, .fail (.reported .timedOut "late")] }
  obtain ⟨store, hopened⟩ : ∃ store, ({} : Sorter).openChunks 0
      (({} : Sorter).sortChunksIn Record.byteOrder [] lateMemory [0]).2 [0] = (.ok [r], store) := by
    rw [hsorted]
    exact ⟨_, rfl⟩
  have huncut : ∀ r' ∈ (({ sink := {} } : RecordWriter).merge Record.byteOrder [r]).2.2,
      r'.Uncut := by
    refine RecordWriter.forall_uncut_of_merge ?_ ?_
    · rw [List.forall_mem_singleton]
      exact ({} : Sorter).chunkSorter.fresh_reader _
    · rw [List.forall_mem_singleton]
      exact ByteSource.endsWithData_of_not_mem (by decide) (by decide)
  have hmerged : (({ sink := {} } : RecordWriter).merge Record.byteOrder [r]).1 =
      .error (.reported .timedOut "late") := by decide +kernel
  obtain ⟨hstore, part, met, -, -, -, -, houtcome, -, hflushes, hends⟩ :=
    sortIn_of_merge_failures {} Record.byteOrder isSort_sortRecords lateMemory hwell [0] hchunks [] {}
      hok [r] store hopened huncut
  obtain ⟨rs, hcontent, hinOrder, -⟩ := hstore 0 (List.mem_singleton.2 rfl)
  rcases hends with ⟨hfine, -⟩ | ⟨e, herror, rfl, houtput⟩
  · rw [hmerged] at hfine
    contradiction
  · rw [hmerged, Except.error.injEq] at herror
    subst herror
    refine ⟨houtcome, ?_, ?_, rs, hcontent, hinOrder⟩
    · rw [houtput]
      decide +kernel
    · rw [houtput, hflushes]

end Sorter

end RecordSort
