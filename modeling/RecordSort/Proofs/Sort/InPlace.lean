import RecordSort.Proofs.Chunk.WholeLoads
import RecordSort.Proofs.Record.StableSort
import RecordSort.Proofs.Sort.Progress

/-! # What workers leave in a memory

While workers sort the chunks of a memory, every chunk holds its first content or the records of it in
order, and nothing else: chunks may share cells, steps may come in any order, and openings, reads and
replacements may fail. The reason is that both contents have the same records up to their order, so that
it makes no difference which of them a worker loads.

* **`inOrder`** — a content with its records in order.
* **`Sortable`** — what is asked of the chunks before they are sorted.
* **`Progression.Fits`** — what a worker has to do with the content of its chunk.
* **`SortsInPlace`** — the invariant; `SortsInPlace.step_of_loadsWhole` says that steps keep it if the
  chunks are loaded to their ends. -/

namespace RecordSort

/-- The content `content` **with its records in order**, each followed by the delimiter. -/
def inOrder (d : UInt8) (cmp : Record → Record → Ordering) (content : Bytes) : Bytes :=
  encode d (sortRecords cmp (decode d content))

/-- The records of a content in order are the records in order. -/
theorem decode_inOrder (d : UInt8) (cmp : Record → Record → Ordering) (content : Bytes) :
    decode d (inOrder d cmp content) = sortRecords cmp (decode d content) := by
  refine decode_encode ?_
  intro r hr
  exact not_mem_of_mem_decode (mem_sortRecords.1 hr)

/-- What is asked of chunks **before they are sorted**: they exist, no reader of them is told that they
have ended before they have, and no two different records of one of them are equal. -/
structure Sortable (d : UInt8) (cmp : Record → Record → Ordering) (m : Memory) (chunks : List Nat) :
    Prop where
  wellFormed : m.WellFormed
  chunk : ∀ i ∈ chunks, ∃ c, m.chunks[i]? = some c
  reads : ∀ i ∈ chunks, ∀ c, m.chunks[i]? = some c → ∀ plan, .serve plan ∈ c.openings →
    Transfer.upTo 0 ∉ plan
  noTies : ∀ i ∈ chunks, NoTies cmp (decode d (m.content i))

/-- How far a worker has come **fits the content of its chunk**, before the sort and now. -/
def Progression.Fits (d : UInt8) (cmp : Record → Record → Ordering) (before now : Bytes) :
    MemoryProgression → Prop
  | .waiting => True
  | .loaded rs => rs = sortRecords cmp (decode d before)
  | .staged _ filled count =>
    count = (decode d before).length ∧ (filled.1 = .ok () → filled.2.contents = inOrder d cmp before)
  | .ended (.ok n) => n = (decode d before).length ∧ now = inOrder d cmp before
  | .ended (.error _) => True

/-- The **invariant** of workers that sort chunks of the memory `m`. -/
structure SortsInPlace (d : UInt8) (cmp : Record → Record → Ordering) (m : Memory)
    (chunks : List Nat) (w : MemoryWorkshop) : Prop where
  later : m.Later w.store
  content : ∀ i, w.store.content i = m.content i ∨ w.store.content i = inOrder d cmp (m.content i)
  workers : ∀ worker ∈ w.workers, worker.1 ∈ chunks ∧
    worker.2.Fits d cmp (m.content worker.1) (w.store.content worker.1)

namespace SortsInPlace

variable {d : UInt8} {cmp : Record → Record → Ordering} {m : Memory} {chunks : List Nat}
  {w : MemoryWorkshop}

/-- The invariant holds before any worker has taken a step. -/
theorem openWorkshop (d : UInt8) (cmp : Record → Record → Ordering) (m : Memory)
    (chunks : List Nat) : SortsInPlace d cmp m chunks (Sorter.openWorkshop m chunks) where
  later := .refl m
  content _ := Or.inl rfl
  workers worker hworker := by
    obtain ⟨i, hi, rfl⟩ := List.mem_map.1 hworker
    exact ⟨hi, trivial⟩

/-- A worker comes on. -/
theorem setWorker (h : SortsInPlace d cmp m chunks w) {i : Nat} {progress : MemoryProgression}
    (hi : i ∈ chunks) (k : Nat) (hfits : progress.Fits d cmp (m.content i) (w.store.content i)) :
    SortsInPlace d cmp m chunks ⟨w.store, w.workers.set k (i, progress)⟩ where
  later := h.later
  content := h.content
  workers worker hworker := by
    rcases List.mem_or_eq_of_mem_set hworker with hmem | rfl
    · exact h.workers worker hmem
    · exact ⟨hi, hfits⟩

/-- The script of a chunk is used up in part. -/
theorem setScript (h : SortsInPlace d cmp m chunks w) {i : Nat} {c c' : MemoryChunk}
    (hc : w.store.chunks[i]? = some c) (hlater : c.Later c') :
    SortsInPlace d cmp m chunks ⟨w.store.setChunk i c', w.workers⟩ where
  later := h.later.trans (Memory.later_setChunk hc hlater)
  content j := by
    rw [Memory.content_setChunk hc hlater.cell]
    exact h.content j
  workers worker hworker := by
    rw [Memory.content_setChunk hc hlater.cell]
    exact h.workers worker hworker

/-- A chunk gets its content in order, and so do all chunks in its cell. -/
theorem setContent (h : SortsInPlace d cmp m chunks w) (hm : m.WellFormed) (i : Nat) :
    SortsInPlace d cmp m chunks
      ⟨w.store.setContent i (inOrder d cmp (m.content i)), w.workers⟩ := by
  have hstore := h.later.wellFormed hm
  -- a chunk in the cell of `i` had the content of `i` at first
  have hshared : ∀ j, w.store.sharesCell i j = true →
      inOrder d cmp (m.content i) = inOrder d cmp (m.content j) := by
    intro j hj
    rw [h.later.sharesCell_eq] at hj
    rw [Memory.content_of_sharesCell hj]
  refine ⟨h.later.trans (Memory.later_setContent _ _ _), ?_, ?_⟩
  · intro j
    rw [Memory.content_setContent hstore]
    split
    · exact Or.inr (hshared j (by assumption))
    · exact h.content j
  · intro worker hworker
    obtain ⟨hmem, hfits⟩ := h.workers worker hworker
    refine ⟨hmem, ?_⟩
    rw [Memory.content_setContent hstore]
    split
    · rename_i hj
      obtain ⟨j, progress⟩ := worker
      cases progress with
      | waiting => trivial
      | loaded rs => exact hfits
      | staged commitError filled count => exact hfits
      | ended outcome =>
        cases outcome with
        | error e => trivial
        | ok n => exact ⟨hfits.1, hshared j hj⟩
    · exact hfits

variable {s : Sorter}

/-- A chunk is loaded to its end if no plan cuts a reader short. -/
theorem loadsWhole (hm : Sortable s.delimiter cmp m chunks) {k i : Nat} {progress : MemoryProgression}
    (hk : w.workers[k]? = some (i, progress)) (h : SortsInPlace d cmp m chunks w) :
    s.chunkSorter.LoadsWhole w.store i := by
  have hi := (h.workers _ (List.mem_of_getElem? hk)).1
  obtain ⟨c₀, hc₀⟩ := hm.chunk i hi
  obtain ⟨c, hc, hlater⟩ := h.later.exists_chunk hc₀
  refine ChunkSorter.loadsWhole_of_not_mem hc ?_
  intro plan hopening
  rcases MemoryChunk.mem_of_nextOpening hopening with hmem | rfl
  · exact hm.reads i hi c₀ hc₀ plan (hlater.openings.subset hmem)
  · exact List.not_mem_nil

variable [Std.TransCmp cmp]

/-- **Whichever content a worker loads**, its records in order are those of the first content. -/
theorem arrange_eq (h : SortsInPlace d cmp m chunks w) {sort : List Record → List Record}
    (hsort : IsSort cmp sort) {i : Nat} (hties : NoTies cmp (decode d (m.content i))) :
    sort (decode d (w.store.content i)) = sortRecords cmp (decode d (m.content i)) := by
  rcases h.content i with hcontent | hcontent
  · rw [hcontent]
    exact hsort.eq_sortRecords hties
  · rw [hcontent, decode_inOrder]
    have hties' : NoTies cmp (sortRecords cmp (decode d (m.content i))) := by
      refine hties.mono ?_
      intro r hr
      exact mem_sortRecords.1 hr
    rw [hsort.eq_sortRecords hties', sortRecords_of_isSorted (isSorted_sortRecords _)]

/-- **Every step of a worker keeps the invariant**, if the worker loads its chunk to the end. -/
theorem step_of_loadsWhole (hm : m.WellFormed) (hsort : IsSort cmp (s.arrange cmp)) {k i : Nat}
    {progress : MemoryProgression} (hchunk : ∃ c, m.chunks[i]? = some c)
    (hties : NoTies cmp (decode s.delimiter (m.content i)))
    (hwhole : progress = .waiting → s.chunkSorter.LoadsWhole w.store i)
    (hk : w.workers[k]? = some (i, progress)) (h : SortsInPlace s.delimiter cmp m chunks w) :
    SortsInPlace s.delimiter cmp m chunks
      ⟨(s.stepWorker cmp w.store i progress).2,
        w.workers.set k (i, (s.stepWorker cmp w.store i progress).1)⟩ := by
  obtain ⟨hi, hfits⟩ := h.workers _ (List.mem_of_getElem? hk)
  dsimp only at hi hfits
  obtain ⟨c₀, hc₀⟩ := hchunk
  obtain ⟨c, hc, hlater⟩ := h.later.exists_chunk hc₀
  have hopened := h.setScript hc c.later_noteOpening
  have hbegun := h.setScript hc c.later_noteReplacing
  cases progress with
  | waiting =>
    rw [Sorter.stepWorker]
    cases hopening : c.nextOpening with
    | refuse e =>
      rw [ChunkSorter.load_of_refuse hc hopening]
      refine hopened.setWorker hi k ?_
      trivial
    | serve plan =>
      rw [ChunkSorter.load_of_serve hc hopening]
      cases houtcome : (drain (s.chunkSorter.reader
        { data := w.store.content i, plan := plan })).outcome with
      | error e =>
        refine hopened.setWorker hi k ?_
        trivial
      -- the records of the chunk are loaded and put in order
      | ok =>
        have hrecords := ChunkSorter.records_of_loadsWhole (hwhole rfl) hc hopening houtcome
        refine hopened.setWorker hi k ?_
        show s.arrange cmp _ = _
        rw [hrecords]
        exact h.arrange_eq hsort hties
  -- the sink takes up the records in order, or fails
  | loaded rs =>
    obtain rfl : rs = _ := hfits
    rw [Sorter.stepWorker, ChunkSorter.stage_eq hc]
    exact hbegun.setWorker hi k ⟨length_sortRecords _, fun hok => c.contents_nextSink hok⟩
  | staged commitError filled count =>
    obtain ⟨hcount, hcontents⟩ := hfits
    have hkept := h.setScript hc (c.later_noteSink filled.2)
    rw [Sorter.stepWorker]
    cases hend : MemoryChunk.endError? commitError filled.1 with
    | some e =>
      rw [Memory.conclude_of_some hc hend]
      refine hkept.setWorker hi k ?_
      trivial
    -- the records are saved, and the worker has ended well
    | none =>
      rw [Memory.conclude_of_none hc hend, hcontents (MemoryChunk.endError?_eq_none_iff.1 hend).1]
      refine (hkept.setContent hm i).setWorker hi k ⟨hcount, ?_⟩
      have hself : (w.store.setChunk i (c.noteSink filled.2)).sharesCell i i = true :=
        Memory.sharesCell_iff.2 ⟨_, _, Memory.getElem?_setChunk_self hc,
          Memory.getElem?_setChunk_self hc, rfl⟩
      rw [Memory.content_setContent (hkept.later.wellFormed hm), if_pos hself]
  | ended outcome => exact h.setWorker hi k hfits

/-- Every step keeps the invariant if no plan cuts a reader short. -/
theorem step (hm : Sortable s.delimiter cmp m chunks) (hsort : IsSort cmp (s.arrange cmp))
    {k i : Nat} {progress : MemoryProgression} (hk : w.workers[k]? = some (i, progress))
    (h : SortsInPlace s.delimiter cmp m chunks w) :
    SortsInPlace s.delimiter cmp m chunks
      ⟨(s.stepWorker cmp w.store i progress).2,
        w.workers.set k (i, (s.stepWorker cmp w.store i progress).1)⟩ := by
  have hi := (h.workers _ (List.mem_of_getElem? hk)).1
  exact h.step_of_loadsWhole hm.wellFormed hsort (hm.chunk i hi) (hm.noTies i hi)
    (fun _ => h.loadsWhole hm hk) hk

/-- **After every schedule** the invariant holds. -/
theorem runSchedule (hm : Sortable s.delimiter cmp m chunks) (hsort : IsSort cmp (s.arrange cmp))
    (schedule : List Nat) :
    SortsInPlace s.delimiter cmp m chunks
      (s.runSchedule cmp (Sorter.openWorkshop m chunks) schedule) := by
  refine Sorter.runSchedule_induction ?_ (openWorkshop s.delimiter cmp m chunks) schedule
  intro w k i progress hk h
  exact h.step hm hsort hk

end SortsInPlace

end RecordSort
