import RecordSort.Proofs.Sort.Repeat

/-! # Chunks that have been sorted

If the sort of every chunk has succeeded, every chunk holds records in order. This needs nothing of the
chunks: they may share cells, hold ties and have been loaded in part. If they have been loaded to their ends
the records are those that each of them held at first.

* **`Ordered`** — records that have been put in order, and where they come from.
* **`Progression.Keeps`** — what a worker has to do with the content of its chunk.
* **`SortsChunks`** — the invariant; `SortsChunks.step` says that steps keep it.
* **`exists_ordered_of_sortChunksIn`** — the chunks after the first phase. -/

namespace RecordSort

/-- The records `rs` **have been put in order**. If `whole` is the case they are those of the content
`before`. -/
structure Ordered (d : UInt8) (cmp : Record → Record → Ordering) (whole : Prop) (before : Bytes)
    (rs : List Record) : Prop where
  sorted : IsSorted cmp rs
  clean : ∀ r ∈ rs, d ∉ r
  perm : whole → rs.Perm (decode d before)

/-- The records of a content that holds records in order are these records. -/
theorem Ordered.decode_encode {d : UInt8} {cmp : Record → Record → Ordering} {whole : Prop}
    {before : Bytes} {rs : List Record} (h : Ordered d cmp whole before rs) :
    decode d (encode d rs) = rs := RecordSort.decode_encode h.clean

/-- What a worker has to do with the content of its chunk: **it has loaded records in order**, or it has ended
well and the chunk holds such records, its own or those of another worker. -/
def Progression.Keeps (d : UInt8) (cmp : Record → Record → Ordering) (whole : Prop)
    (before now : Bytes) : MemoryProgression → Prop
  | .waiting => True
  | .loaded rs => Ordered d cmp whole before rs
  | .staged _ filled _ =>
    ∃ rs, (filled.1 = .ok () → filled.2.contents = encode d rs) ∧ Ordered d cmp whole before rs
  | .ended (.ok _) => ∃ rs, now = encode d rs ∧ Ordered d cmp whole before rs
  | .ended (.error _) => True

/-- The **invariant** of workers that sort chunks of the memory `m`, whatever they load. -/
structure SortsChunks (d : UInt8) (cmp : Record → Record → Ordering) (whole : Prop) (m : Memory)
    (chunks : List Nat) (w : MemoryWorkshop) : Prop where
  later : m.Later w.store
  perm : whole → ∀ i, (decode d (w.store.content i)).Perm (decode d (m.content i))
  workers : ∀ worker ∈ w.workers, worker.1 ∈ chunks ∧
    worker.2.Keeps d cmp whole (m.content worker.1) (w.store.content worker.1)

namespace SortsChunks

variable {d : UInt8} {cmp : Record → Record → Ordering} {whole : Prop} {m : Memory}
  {chunks : List Nat} {w : MemoryWorkshop}

/-- The invariant holds before any worker has taken a step. -/
theorem openWorkshop (d : UInt8) (cmp : Record → Record → Ordering) (whole : Prop) (m : Memory)
    (chunks : List Nat) : SortsChunks d cmp whole m chunks (Sorter.openWorkshop m chunks) where
  later := .refl m
  perm _ _ := .refl _
  workers worker hworker := by
    obtain ⟨i, hi, rfl⟩ := List.mem_map.1 hworker
    exact ⟨hi, trivial⟩

/-- A worker comes on. -/
theorem setWorker (h : SortsChunks d cmp whole m chunks w) {i : Nat} {progress : MemoryProgression}
    (hi : i ∈ chunks) (k : Nat)
    (hkeeps : progress.Keeps d cmp whole (m.content i) (w.store.content i)) :
    SortsChunks d cmp whole m chunks ⟨w.store, w.workers.set k (i, progress)⟩ where
  later := h.later
  perm := h.perm
  workers worker hworker := by
    rcases List.mem_or_eq_of_mem_set hworker with hmem | rfl
    · exact h.workers worker hmem
    · exact ⟨hi, hkeeps⟩

/-- The script of a chunk is used up in part. -/
theorem setScript (h : SortsChunks d cmp whole m chunks w) {i : Nat} {c c' : MemoryChunk}
    (hc : w.store.chunks[i]? = some c) (hlater : c.Later c') :
    SortsChunks d cmp whole m chunks ⟨w.store.setChunk i c', w.workers⟩ where
  later := h.later.trans (Memory.later_setChunk hc hlater)
  perm hwhole j := by
    rw [Memory.content_setChunk hc hlater.cell]
    exact h.perm hwhole j
  workers worker hworker := by
    rw [Memory.content_setChunk hc hlater.cell]
    exact h.workers worker hworker

/-- A chunk gets records in order, and so do all chunks in its cell. -/
theorem setContent (h : SortsChunks d cmp whole m chunks w) (hm : m.WellFormed) (i : Nat)
    {rs : List Record} (hrs : Ordered d cmp whole (m.content i) rs) :
    SortsChunks d cmp whole m chunks ⟨w.store.setContent i (encode d rs), w.workers⟩ := by
  have hstore := h.later.wellFormed hm
  -- a chunk in the cell of `i` had the content of `i` at first
  have hshared : ∀ j, w.store.sharesCell i j = true → Ordered d cmp whole (m.content j) rs := by
    intro j hj
    rw [h.later.sharesCell_eq] at hj
    rw [← Memory.content_of_sharesCell hj]
    exact hrs
  refine ⟨h.later.trans (Memory.later_setContent _ _ _), ?_, ?_⟩
  · intro hwhole j
    rw [Memory.content_setContent hstore]
    split
    · rename_i hj
      rw [hrs.decode_encode]
      exact (hshared j hj).perm hwhole
    · exact h.perm hwhole j
  · intro worker hworker
    obtain ⟨hmem, hkeeps⟩ := h.workers worker hworker
    refine ⟨hmem, ?_⟩
    rw [Memory.content_setContent hstore]
    split
    · rename_i hj
      obtain ⟨j, progress⟩ := worker
      cases progress with
      | waiting => trivial
      | loaded rs' => exact hkeeps
      | staged commitError filled count => exact hkeeps
      | ended outcome =>
        cases outcome with
        | error e => trivial
        | ok n => exact ⟨rs, rfl, hshared j hj⟩
    · exact hkeeps

variable {s : Sorter}

/-- **Every step of a worker keeps the invariant.** -/
theorem step (hm : m.WellFormed) (hsort : IsSort cmp (s.arrange cmp)) {k i : Nat}
    {progress : MemoryProgression} (hchunk : ∃ c, m.chunks[i]? = some c)
    (hwhole : whole → progress = .waiting → s.chunkSorter.LoadsWhole w.store i)
    (hk : w.workers[k]? = some (i, progress)) (h : SortsChunks s.delimiter cmp whole m chunks w) :
    SortsChunks s.delimiter cmp whole m chunks
      ⟨(s.stepWorker cmp w.store i progress).2,
        w.workers.set k (i, (s.stepWorker cmp w.store i progress).1)⟩ := by
  obtain ⟨hi, hkeeps⟩ := h.workers _ (List.mem_of_getElem? hk)
  dsimp only at hi hkeeps
  obtain ⟨c₀, hc₀⟩ := hchunk
  obtain ⟨c, hc, hlater⟩ := h.later.exists_chunk hc₀
  have hopened := h.setScript hc c.later_noteOpening
  have hbegun := h.setScript hc c.later_noteReplacing
  cases progress with
  | waiting =>
    rw [Sorter.stepWorker]
    cases hopening : c.nextOpening with
    | refuse e =>
      rw [ChunkSorter.load_of_refuse hc hopening]
      exact hopened.setWorker hi k trivial
    | serve plan =>
      rw [ChunkSorter.load_of_serve hc hopening]
      obtain ⟨r, hr⟩ : ∃ r, r = s.chunkSorter.reader { data := w.store.content i, plan := plan } :=
        ⟨_, rfl⟩
      have hfresh : r.Fresh := hr ▸ s.chunkSorter.fresh_reader _
      rw [← hr]
      cases houtcome : (drain r).outcome with
      | error e => exact hopened.setWorker hi k trivial
      -- what has been read is put in order, be it the whole content or a part of it
      | ok =>
        obtain ⟨hperm, hsorted⟩ := hsort (drain r).records
        refine hopened.setWorker hi k ⟨hsorted, ?_, ?_⟩
        · intro p hp
          have hmem := hperm.mem_iff.1 hp
          rw [(RecordReader.drain_eq_decode hfresh.inRange).1 houtcome, hr] at hmem
          exact not_mem_of_mem_decode hmem
        · intro hw
          have hrecords := ChunkSorter.records_of_loadsWhole (hwhole hw rfl) hc hopening (hr ▸ houtcome)
          rw [← hr] at hrecords
          rw [hrecords] at hperm
          exact hrecords ▸ hperm.trans (h.perm hw i)
  | loaded rs =>
    rw [Sorter.stepWorker, ChunkSorter.stage_eq hc]
    exact hbegun.setWorker hi k ⟨rs, fun hok => c.contents_nextSink hok, hkeeps⟩
  | staged commitError filled count =>
    obtain ⟨rs, hcontents, hordered⟩ := hkeeps
    have hkept := h.setScript hc (c.later_noteSink filled.2)
    rw [Sorter.stepWorker]
    cases hend : MemoryChunk.endError? commitError filled.1 with
    | some e =>
      rw [Memory.conclude_of_some hc hend]
      exact hkept.setWorker hi k trivial
    | none =>
      rw [Memory.conclude_of_none hc hend, hcontents (MemoryChunk.endError?_eq_none_iff.1 hend).1]
      have hself : (w.store.setChunk i (c.noteSink filled.2)).sharesCell i i = true :=
        Memory.sharesCell_self (Memory.getElem?_setChunk_self hc)
      refine (hkept.setContent hm i hordered).setWorker hi k ⟨rs, ?_, hordered⟩
      rw [Memory.content_setContent (hkept.later.wellFormed hm), if_pos hself]
  | ended outcome => exact h.setWorker hi k hkeeps

end SortsChunks

namespace Sorter

variable {s : Sorter} {cmp : Record → Record → Ordering} {whole : Prop} {m : Memory}
  {chunks : List Nat} {w : MemoryWorkshop}

/-- The invariant holds after the steps of a schedule. -/
theorem sortsChunks_runSchedule (hm : m.WellFormed) (hsort : IsSort cmp (s.arrange cmp))
    (hchunks : ∀ i ∈ chunks, ∃ c, m.chunks[i]? = some c) {schedule : List Nat}
    (hwhole : whole → s.LoadsWhole cmp w schedule)
    (h : SortsChunks s.delimiter cmp whole m chunks w) :
    SortsChunks s.delimiter cmp whole m chunks (s.runSchedule cmp w schedule) := by
  induction schedule generalizing w with
  | nil => exact h
  | cons k rest ih =>
    rw [runSchedule_cons]
    refine ih (fun hw => (hwhole hw).2) ?_
    cases hk : w.workers[k]? with
    | none => rw [advance_of_none hk]; exact h
    | some worker =>
      obtain ⟨i, progress⟩ := worker
      have hi := (h.workers _ (List.mem_of_getElem? hk)).1
      rw [advance_of_getElem? hk]
      refine h.step hm hsort (hchunks i hi) ?_ hk
      rintro hw rfl
      exact (hwhole hw).1 i hk

/-- **After the first phase every chunk holds records in order**, if no sort of a chunk has failed. -/
theorem exists_ordered_of_sortChunksIn (hm : m.WellFormed) (hsort : IsSort cmp (s.arrange cmp))
    (hchunks : ∀ i ∈ chunks, ∃ c, m.chunks[i]? = some c) {schedule : List Nat}
    (hok : ∀ o ∈ (s.sortChunksIn cmp schedule m chunks).1, ∃ n, o = .ok n) :
    m.Later (s.sortChunksIn cmp schedule m chunks).2 ∧ ∀ i ∈ chunks, ∃ rs,
      (s.sortChunksIn cmp schedule m chunks).2.content i = encode s.delimiter rs ∧
        Ordered s.delimiter cmp
          (s.LoadsWhole cmp (openWorkshop m chunks) (schedule ++ oneByOne 0 chunks.length))
          (m.content i) rs := by
  have hsorts : SortsChunks s.delimiter cmp
      (s.LoadsWhole cmp (openWorkshop m chunks) (schedule ++ oneByOne 0 chunks.length)) m chunks
      (s.atEnd cmp schedule m chunks) :=
    sortsChunks_runSchedule hm hsort hchunks id (.openWorkshop ..)
  refine ⟨hsorts.later, ?_⟩
  intro i hi
  obtain ⟨k, hk⟩ := List.mem_iff_getElem?.1 hi
  obtain ⟨outcome, houtcome⟩ := s.ended_atEnd cmp schedule m hk
  obtain ⟨n, rfl⟩ := hok outcome (List.mem_of_getElem? (getElem?_sortChunksIn.2 ⟨i, houtcome⟩))
  exact (hsorts.workers _ (List.mem_of_getElem? houtcome)).2

end Sorter

end RecordSort
