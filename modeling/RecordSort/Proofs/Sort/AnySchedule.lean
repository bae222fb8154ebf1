import RecordSort.Proofs.Record.TotalPreorder
import RecordSort.Proofs.Sort.InPlace

/-! # The schedule makes no difference

Workers sort chunks some of which share a cell, so that one of them may save records that it has loaded
before another one saved its own. What it saves is nevertheless what lies in the cell already. So the
outcomes and the whole memory at the end are those of sorting the chunks one after the other.

* **`MemoryChunk.sortOutcome`**, **`MemoryChunk.afterSort`** — what the script of a chunk makes of its
  sort.
* **`Progression.Tells`** — what a worker has come to, and how much of the script of its chunk it has used.
* **`Memory.SavedIn`**, **`Memory.InOrderAt`** — where records have been saved, and what the cells then hold.
* **`WorkerStep`** — what one step of a worker changes; `workerStep` says that every step is such.
* **`SortsEach`** — the invariant; `SortsEach.step` says that steps keep it, and `SortsEach.eq_of_ended`
  that it tells everything once all workers have ended.
* **`atEnd_eq_atEnd`**, **`outcome_eq_sortBy`**, **`savedIn_atEnd`** — the end of any schedule.
* **`sortChunksIn_eq_sortChunks`** — any schedule against one after the other. -/

namespace RecordSort

namespace MemoryChunk

/-- **What the sort of the chunk comes to** if `rs` are its records in order and reading them does not
fail: it fails if the chunk cannot be opened or the records cannot be saved. -/
def sortOutcome (d : UInt8) (rs : List Record) (c : MemoryChunk) : Except StreamError Nat :=
  match c.nextOpening with
  | .refuse e => .error e
  | .serve _ =>
    match c.noteOpening.saveError? d rs with
    | some e => .error e
    | none => .ok rs.length

/-- The chunk **after its sort**, if `rs` are its records in order: it is replaced only if it could be
opened. -/
def afterSort (d : UInt8) (rs : List Record) (c : MemoryChunk) : MemoryChunk :=
  match c.nextOpening with
  | .refuse _ => c.noteOpening
  | .serve _ => c.noteOpening.noteSaving d rs

end MemoryChunk

/-- How far a worker has come **tells the state of its chunk**, which was `c` at first and is `now`, where
`rs` are the records of the chunk in order. -/
def Progression.Tells (d : UInt8) (rs : List Record) (c now : MemoryChunk) :
    MemoryProgression → Prop
  | .waiting => now = c
  | .loaded rs' => rs' = rs ∧ (∃ plan, c.nextOpening = .serve plan) ∧ now = c.noteOpening
  | .staged commitError filled count =>
    commitError = c.noteOpening.nextReplacing.commitError ∧
      filled = saveRecords d rs c.noteOpening.nextSink ∧ count = rs.length ∧
      (∃ plan, c.nextOpening = .serve plan) ∧ now = c.noteOpening.noteReplacing
  | .ended outcome => outcome = c.sortOutcome d rs ∧ now = c.afterSort d rs

namespace Memory

/-- Some worker **has saved records in cell `x`** and ended well. -/
def SavedIn (m : Memory) (workers : List (Nat × MemoryProgression)) (x : Nat) : Prop :=
  ∃ i c n, (i, Progression.ended (.ok n)) ∈ workers ∧ m.chunks[i]? = some c ∧ c.cell = x

/-- Sorts of chunks have come to `outcomes`, and **one of them has succeeded in the cell** of chunk `j`. -/
def SortedIn (m : Memory) (chunks : List Nat) (outcomes : List (Except StreamError Nat)) (j : Nat) :
    Prop :=
  ∃ (k i n : Nat), chunks[k]? = some i ∧ m.sharesCell i j = true ∧ outcomes[k]? = some (.ok n)

variable {m : Memory} {workers : List (Nat × MemoryProgression)} {k i x : Nat} {c : MemoryChunk}
  {progress progress' : MemoryProgression}

/-- The cell of a chunk holds its content. -/
theorem getElem?_cells (hm : m.WellFormed) (hc : m.chunks[i]? = some c) :
    m.cells[c.cell]? = some (m.content i) := by
  have hlt : c.cell < m.cells.length := hm c (List.mem_of_getElem? hc)
  rw [content, hc]
  dsimp only
  rw [List.getD_eq_getElem?_getD, List.getElem?_eq_getElem hlt, Option.getD_some]

/-- A worker that comes on **saves records only by ending well**. -/
theorem savedIn_set (hk : workers[k]? = some (i, progress))
    (hbefore : ∀ n, progress ≠ .ended (.ok n)) (hc : m.chunks[i]? = some c) :
    m.SavedIn (workers.set k (i, progress')) x ↔
      m.SavedIn workers x ∨ (c.cell = x ∧ ∃ n, progress' = .ended (.ok n)) := by
  have hlt : k < workers.length := (List.getElem?_eq_some_iff.1 hk).1
  constructor
  · rintro ⟨j, c', n, hmem, hc', hcell⟩
    rcases List.mem_or_eq_of_mem_set hmem with hmem | heq
    · exact Or.inl ⟨j, c', n, hmem, hc', hcell⟩
    · obtain ⟨rfl, rfl⟩ := Prod.mk.inj heq
      rw [hc, Option.some.injEq] at hc'
      exact Or.inr ⟨hc' ▸ hcell, n, rfl⟩
  · rintro (⟨j, c', n, hmem, hc', hcell⟩ | ⟨hcell, n, rfl⟩)
    -- the worker that had saved them is another one
    · obtain ⟨l, hl⟩ := List.mem_iff_getElem?.1 hmem
      have hkl : k ≠ l := by
        rintro rfl
        rw [hk, Option.some.injEq, Prod.mk.injEq] at hl
        exact hbefore n hl.2
      refine ⟨j, c', n, ?_, hc', hcell⟩
      exact List.mem_of_getElem? ((List.getElem?_set_ne hkl).trans hl)
    · exact ⟨i, c, n, List.mem_set hlt _, hc, hcell⟩

/-- The cells of `m` **in order where records were saved**, and as they are in `m` everywhere else. -/
def InOrderAt (d : UInt8) (cmp : Record → Record → Ordering) (m : Memory) (saved : Nat → Prop)
    (cells : List Bytes) : Prop :=
  ∀ x, (saved x → cells[x]? = m.cells[x]?.map (inOrder d cmp)) ∧ (¬ saved x → cells[x]? = m.cells[x]?)

namespace InOrderAt

variable {d : UInt8} {cmp : Record → Record → Ordering} {saved saved' : Nat → Prop}
  {cells cells' : List Bytes}

/-- Only where records were saved counts. -/
theorem congr (h : InOrderAt d cmp m saved cells) (hiff : ∀ x, saved' x ↔ saved x) :
    InOrderAt d cmp m saved' cells := by
  intro x
  rw [hiff x]
  exact h x

/-- The records of a chunk are saved in its cell. -/
theorem set (h : InOrderAt d cmp m saved cells) (hm : m.WellFormed)
    (hlength : cells.length = m.cells.length) (hc : m.chunks[i]? = some c) :
    InOrderAt d cmp m (fun x => saved x ∨ c.cell = x)
      (cells.set c.cell (inOrder d cmp (m.content i))) := by
  have hlt : c.cell < cells.length := hlength ▸ hm c (List.mem_of_getElem? hc)
  intro x
  by_cases hx : c.cell = x
  · subst hx
    refine ⟨fun _ => ?_, fun hnot => absurd (Or.inr rfl) hnot⟩
    rw [List.getElem?_set_self hlt, getElem?_cells hm hc, Option.map_some]
  · rw [List.getElem?_set_ne hx]
    dsimp only
    rw [or_iff_left hx]
    exact h x

/-- Where records were saved tells the cells. -/
theorem eq (h : InOrderAt d cmp m saved cells) (h' : InOrderAt d cmp m saved cells') :
    cells = cells' := by
  refine List.ext_getElem? ?_
  intro x
  by_cases hx : saved x
  · rw [(h x).1 hx, (h' x).1 hx]
  · rw [(h x).2 hx, (h' x).2 hx]

end InOrderAt

end Memory

/-- What is asked of chunks that workers sort **in any order**. Every place of the list has a chunk of its
own, but chunks may share cells. They may refuse to be opened, but reading them does not fail; of their
replacements nothing is asked. No two different records of one content are equal. -/
structure Shareable (d : UInt8) (cmp : Record → Record → Ordering) (m : Memory) (chunks : List Nat) :
    Prop where
  wellFormed : m.WellFormed
  nodup : chunks.Nodup
  chunk : ∀ i ∈ chunks, ∃ c, m.chunks[i]? = some c ∧
    ∀ plan, c.nextOpening = .serve plan → Harmless plan
  noTies : ∀ i ∈ chunks, NoTies cmp (decode d (m.content i))

/-- The **invariant** of workers each of which sorts a chunk of its own: how far a worker has come tells the
state of its chunk, and the cells hold what the workers that have ended well have saved. -/
structure SortsEach (d : UInt8) (cmp : Record → Record → Ordering) (m : Memory) (chunks : List Nat)
    (w : MemoryWorkshop) : Prop extends SortsInPlace d cmp m chunks w where
  chunks_eq : w.workers.map (·.1) = chunks
  tells : ∀ (k i : Nat) (progress : MemoryProgression), w.workers[k]? = some (i, progress) →
    ∃ c now, m.chunks[i]? = some c ∧ w.store.chunks[i]? = some now ∧
      progress.Tells d (sortRecords cmp (decode d (m.content i))) c now
  others : ∀ j, j ∉ chunks → w.store.chunks[j]? = m.chunks[j]?
  cells : m.InOrderAt d cmp (m.SavedIn w.workers) w.store.cells

/-- **One step of the worker of chunk `i`**, to `progress'` and from `store` to `store'`, where `rs` are the
records of the chunk in order, it was `c` at first and is `now'` after the step: only the script of the chunk
is used, and its cell is replaced exactly if the worker ends well. -/
structure WorkerStep (d : UInt8) (rs : List Record) (i : Nat) (c now' : MemoryChunk)
    (store store' : Memory) (progress' : MemoryProgression) : Prop where
  chunks : store'.chunks = store.chunks.set i now'
  tells : progress'.Tells d rs c now'
  kept : (∀ n, progress' ≠ .ended (.ok n)) → store'.cells = store.cells
  saved : ∀ n, progress' = .ended (.ok n) → store'.cells = store.cells.set c.cell (encode d rs)

namespace Sorter

/-- **A worker that has not ended** takes such a step. -/
theorem workerStep {s : Sorter} {cmp : Record → Record → Ordering} {store : Memory} {i : Nat}
    {c now : MemoryChunk} {rs : List Record} {progress : MemoryProgression}
    (hnow : store.chunks[i]? = some now)
    (hreads : ∀ plan, c.nextOpening = .serve plan → Harmless plan)
    (harrange : s.arrange cmp (decode s.delimiter (store.content i)) = rs)
    (htells : progress.Tells s.delimiter rs c now) (hends : ∀ outcome, progress ≠ .ended outcome) :
    ∃ now', WorkerStep s.delimiter rs i c now' store (s.stepWorker cmp store i progress).2
      (s.stepWorker cmp store i progress).1 := by
  cases progress with
  | waiting =>
    obtain rfl : now = c := htells
    refine ⟨now.noteOpening, ?_⟩
    rw [stepWorker]
    cases hopening : now.nextOpening with
    | refuse e =>
      rw [ChunkSorter.load_of_refuse hnow hopening]
      refine ⟨rfl, ⟨?_, ?_⟩, fun _ => rfl, fun n hn => by simp at hn⟩
      · rw [MemoryChunk.sortOutcome, hopening]
      · rw [MemoryChunk.afterSort, hopening]
    | serve plan =>
      rw [ChunkSorter.load_of_harmless hnow hopening (hreads plan hopening)]
      refine ⟨rfl, ⟨harrange, ⟨plan, hopening⟩, rfl⟩, fun _ => rfl, ?_⟩
      intro n hn
      contradiction
  | loaded rs' =>
    obtain ⟨rfl, hopening, rfl⟩ := htells
    refine ⟨c.noteOpening.noteReplacing, ?_⟩
    rw [stepWorker, ChunkSorter.stage_eq hnow]
    exact ⟨rfl, ⟨rfl, rfl, rfl, hopening, rfl⟩, fun _ => rfl, fun n hn => by cases hn⟩
  | staged commitError filled count =>
    obtain ⟨rfl, rfl, rfl, ⟨plan, hopening⟩, rfl⟩ := htells
    have hafter : c.afterSort s.delimiter rs = c.noteOpening.noteSaving s.delimiter rs := by
      rw [MemoryChunk.afterSort, hopening]
    refine ⟨c.noteOpening.noteSaving s.delimiter rs, ?_⟩
    rw [stepWorker]
    -- a replacement ends with the error that saving the records would end with
    cases hsave : c.noteOpening.saveError? s.delimiter rs with
    | some e =>
      rw [Memory.conclude_of_some hnow hsave]
      refine ⟨rfl, ⟨?_, hafter.symm⟩, fun _ => rfl, fun n hn => by cases hn⟩
      rw [MemoryChunk.sortOutcome, hopening]
      dsimp only
      rw [hsave]
      rfl
    | none =>
      rw [Memory.conclude_of_none hnow hsave,
        c.noteOpening.contents_nextSink (MemoryChunk.endError?_eq_none_iff.1 hsave).1]
      refine ⟨Memory.chunks_setContent _ _ _, ⟨?_, hafter.symm⟩,
        fun hno => absurd rfl (hno rs.length), ?_⟩
      · rw [MemoryChunk.sortOutcome, hopening]
        dsimp only
        rw [hsave]
        rfl
      · intro n hn
        dsimp only
        rw [Memory.setContent, Memory.getElem?_setChunk_self hnow]
        rfl
  | ended outcome => exact absurd rfl (hends outcome)

end Sorter

/-- All workers **have ended**. -/
def AllEnded (w : MemoryWorkshop) : Prop :=
  ∀ worker ∈ w.workers, ∃ outcome, worker.2 = .ended outcome

namespace SortsEach

variable {d : UInt8} {cmp : Record → Record → Ordering} {m : Memory} {chunks : List Nat}
  {w : MemoryWorkshop}

/-- The invariant holds before any worker has taken a step. -/
theorem openWorkshop (hchunks : ∀ i ∈ chunks, ∃ c, m.chunks[i]? = some c) :
    SortsEach d cmp m chunks (Sorter.openWorkshop m chunks) where
  toSortsInPlace := .openWorkshop d cmp m chunks
  chunks_eq := by simp [Sorter.openWorkshop, Function.comp_def]
  tells k i progress hk := by
    obtain ⟨j, hj, heq⟩ := List.mem_map.1 (List.mem_of_getElem? hk)
    obtain ⟨rfl, rfl⟩ := Prod.mk.inj heq
    obtain ⟨c, hc⟩ := hchunks j hj
    exact ⟨c, c, hc, hc, rfl⟩
  others _ _ := rfl
  cells x := by
    refine ⟨?_, fun _ => rfl⟩
    rintro ⟨i, c, n, hmem, -⟩
    obtain ⟨j, -, heq⟩ := List.mem_map.1 hmem
    simp at heq

/-- The chunk of a worker stands at its place of the list. -/
theorem getElem?_chunks (h : SortsEach d cmp m chunks w) (k : Nat) :
    chunks[k]? = w.workers[k]?.map (·.1) := by
  rw [← h.chunks_eq, List.getElem?_map]

/-- Another worker has another chunk. -/
theorem ne_of_ne (h : SortsEach d cmp m chunks w) (hnodup : chunks.Nodup) {k l i j : Nat}
    {p q : MemoryProgression} (hkl : k ≠ l) (hk : w.workers[k]? = some (i, p))
    (hl : w.workers[l]? = some (j, q)) : i ≠ j := by
  have hk' : chunks[k]? = some i := by rw [h.getElem?_chunks, hk]; rfl
  have hl' : chunks[l]? = some j := by rw [h.getElem?_chunks, hl]; rfl
  rintro rfl
  exact hkl ((List.getElem?_inj (List.getElem?_eq_some_iff.1 hk').1 hnodup).1 (hk'.trans hl'.symm))

/-! ### When all workers have ended -/

variable {w' : MemoryWorkshop}

/-- A worker that has ended tells its outcome and the state of its chunk. -/
theorem of_ended (h : SortsEach d cmp m chunks w) (hended : AllEnded w) {k i : Nat}
    (hk : chunks[k]? = some i) :
    ∃ c, m.chunks[i]? = some c ∧
      w.store.chunks[i]? = some (c.afterSort d (sortRecords cmp (decode d (m.content i)))) ∧
      w.workers[k]? =
        some (i, .ended (c.sortOutcome d (sortRecords cmp (decode d (m.content i))))) := by
  rw [h.getElem?_chunks, Option.map_eq_some_iff] at hk
  obtain ⟨⟨j, progress⟩, hl, rfl⟩ := hk
  obtain ⟨outcome, rfl⟩ : ∃ outcome, progress = .ended outcome := hended _ (List.mem_of_getElem? hl)
  obtain ⟨c, now, hc, hnow, rfl, rfl⟩ := h.tells k j _ hl
  exact ⟨c, hc, hnow, hl⟩

/-- The outcomes do not depend on the order of the steps. -/
theorem workers_eq (h : SortsEach d cmp m chunks w) (h' : SortsEach d cmp m chunks w')
    (hended : AllEnded w) (hended' : AllEnded w') : w.workers = w'.workers := by
  apply List.ext_getElem?
  intro k
  cases hk : chunks[k]? with
  | none =>
    have hnone := h.getElem?_chunks k
    have hnone' := h'.getElem?_chunks k
    rw [hk] at hnone hnone'
    rw [Option.map_eq_none_iff.1 hnone.symm, Option.map_eq_none_iff.1 hnone'.symm]
  | some i =>
    obtain ⟨c, hc, -, hl⟩ := h.of_ended hended hk
    obtain ⟨c', hc', -, hl'⟩ := h'.of_ended hended' hk
    rw [hc, Option.some.injEq] at hc'
    rw [hl, hl', hc']

/-- What is left of the scripts does not depend on the order of the steps. -/
theorem chunks_store_eq (h : SortsEach d cmp m chunks w) (h' : SortsEach d cmp m chunks w')
    (hended : AllEnded w) (hended' : AllEnded w') : w.store.chunks = w'.store.chunks := by
  apply List.ext_getElem?
  intro j
  by_cases hj : j ∈ chunks
  · obtain ⟨k, hk⟩ := List.mem_iff_getElem?.1 hj
    obtain ⟨c, hc, hnow, -⟩ := h.of_ended hended hk
    obtain ⟨c', hc', hnow', -⟩ := h'.of_ended hended' hk
    rw [hc, Option.some.injEq] at hc'
    rw [hnow, hnow', hc']
  · rw [h.others j hj, h'.others j hj]

/-- **Once all workers have ended**, nothing is left of the order in which they took their steps. -/
theorem eq_of_ended (h : SortsEach d cmp m chunks w) (h' : SortsEach d cmp m chunks w')
    (hended : AllEnded w) (hended' : AllEnded w') : w = w' := by
  have hworkers := h.workers_eq h' hended hended'
  have hchunks := h.chunks_store_eq h' hended hended'
  have hcells : w.store.cells = w'.store.cells := h.cells.eq (hworkers ▸ h'.cells)
  obtain ⟨⟨cells, chunks⟩, workers⟩ := w
  obtain ⟨⟨cells', chunks'⟩, workers'⟩ := w'
  obtain rfl : workers = workers' := hworkers
  obtain rfl : chunks = chunks' := hchunks
  obtain rfl : cells = cells' := hcells
  rfl

/-- The content of a chunk **follows from what has been saved** in its cell. -/
theorem content_of_cell (h : SortsEach d cmp m chunks w) (hm : m.WellFormed) {j : Nat}
    {c : MemoryChunk} (hc : m.chunks[j]? = some c) :
    (m.SavedIn w.workers c.cell → w.store.content j = inOrder d cmp (m.content j)) ∧
      (¬ m.SavedIn w.workers c.cell → w.store.content j = m.content j) := by
  obtain ⟨c', hc', hlater⟩ := h.later.exists_chunk hc
  have hnow := Memory.getElem?_cells (h.later.wellFormed hm) hc'
  have hcell := h.cells c.cell
  rw [hlater.cell] at hnow
  rw [hnow, Memory.getElem?_cells hm hc, Option.map_some, Option.some.injEq, Option.some.injEq]
    at hcell
  exact hcell

/-! ### Steps -/

/-- **A worker that has not ended comes on**: the other workers, the chunks that they sort and the other
cells stay as they are. -/
theorem comesOn (hm : Shareable d cmp m chunks) (h : SortsEach d cmp m chunks w) {k i : Nat}
    {progress progress' : MemoryProgression} {c now now' : MemoryChunk} {store' : Memory}
    (hk : w.workers[k]? = some (i, progress)) (hends : ∀ outcome, progress ≠ .ended outcome)
    (hc : m.chunks[i]? = some c) (hnow : w.store.chunks[i]? = some now)
    (hplace : SortsInPlace d cmp m chunks ⟨store', w.workers.set k (i, progress')⟩)
    (hstep : WorkerStep d (sortRecords cmp (decode d (m.content i))) i c now' w.store store'
      progress') :
    SortsEach d cmp m chunks ⟨store', w.workers.set k (i, progress')⟩ := by
  have hlt : k < w.workers.length := (List.getElem?_eq_some_iff.1 hk).1
  have hlt' : i < w.store.chunks.length := (List.getElem?_eq_some_iff.1 hnow).1
  refine ⟨hplace, ?_, ?_, ?_, ?_⟩
  · rw [← h.chunks_eq]
    exact map_set_eq_map hk rfl
  · intro l j q hl
    dsimp only at hl
    by_cases hkl : k = l
    -- the worker itself
    · subst hkl
      rw [List.getElem?_set_self hlt, Option.some.injEq, Prod.mk.injEq] at hl
      obtain ⟨rfl, rfl⟩ := hl
      refine ⟨c, now', hc, ?_, hstep.tells⟩
      rw [hstep.chunks, List.getElem?_set_self hlt']
    -- another worker, with another chunk
    · rw [List.getElem?_set_ne hkl] at hl
      obtain ⟨c', now'', hc', hnow', htells⟩ := h.tells l j q hl
      refine ⟨c', now'', hc', ?_, htells⟩
      rw [hstep.chunks, List.getElem?_set_ne (h.ne_of_ne hm.nodup hkl hk hl)]
      exact hnow'
  · intro j hj
    have hij : i ≠ j := by
      rintro rfl
      exact hj (h.workers _ (List.mem_of_getElem? hk)).1
    rw [hstep.chunks, List.getElem?_set_ne hij]
    exact h.others j hj
  · have hsaved : ∀ x, m.SavedIn (w.workers.set k (i, progress')) x ↔
        m.SavedIn w.workers x ∨ (c.cell = x ∧ ∃ n, progress' = .ended (.ok n)) := by
      intro x
      exact Memory.savedIn_set hk (fun n => hends (.ok n)) hc
    by_cases hok : ∃ n, progress' = .ended (.ok n)
    · rw [hstep.saved _ hok.choose_spec]
      refine (h.cells.set hm.wellFormed h.later.cells hc).congr fun x => ?_
      rw [hsaved x, and_iff_left hok]
    · rw [hstep.kept fun n hn => hok ⟨n, hn⟩]
      refine h.cells.congr fun x => ?_
      rw [hsaved x, or_iff_left fun hboth => hok hboth.2]

variable {s : Sorter} [Std.TransCmp cmp]

/-- **Every step of a worker keeps the invariant.** -/
theorem step (hm : Shareable s.delimiter cmp m chunks) (hsort : IsSort cmp (s.arrange cmp))
    {k i : Nat} {progress : MemoryProgression} (hk : w.workers[k]? = some (i, progress))
    (h : SortsEach s.delimiter cmp m chunks w) :
    SortsEach s.delimiter cmp m chunks
      ⟨(s.stepWorker cmp w.store i progress).2,
        w.workers.set k (i, (s.stepWorker cmp w.store i progress).1)⟩ := by
  by_cases hended : ∃ outcome, progress = .ended outcome
  -- a worker that has ended changes nothing
  · obtain ⟨outcome, rfl⟩ := hended
    show SortsEach _ _ _ _ ⟨w.store, w.workers.set k (i, .ended outcome)⟩
    rw [set_getElem?_self hk]
    exact h
  · have hends : ∀ outcome, progress ≠ .ended outcome := fun outcome heq => hended ⟨outcome, heq⟩
    have hi := (h.workers _ (List.mem_of_getElem? hk)).1
    obtain ⟨c, now, hc, hnow, htells⟩ := h.tells k i progress hk
    have hreads : ∀ plan, c.nextOpening = .serve plan → Harmless plan := by
      obtain ⟨c', hc', hreads⟩ := hm.chunk i hi
      rw [hc, Option.some.injEq] at hc'
      exact hc' ▸ hreads
    have hwhole : progress = .waiting → s.chunkSorter.LoadsWhole w.store i := by
      rintro rfl
      obtain rfl : now = c := htells
      refine ChunkSorter.loadsWhole_of_not_mem hnow ?_
      intro plan hopening
      exact (hreads plan hopening).upTo_zero_not_mem
    have hplace := h.toSortsInPlace.step_of_loadsWhole hm.wellFormed hsort ⟨c, hc⟩
      (hm.noTies i hi) hwhole hk
    obtain ⟨now', hstep⟩ := Sorter.workerStep hnow hreads (h.arrange_eq hsort (hm.noTies i hi))
      htells hends
    exact h.comesOn hm hk hends hc hnow hplace hstep

/-- **After every schedule** the invariant holds. -/
theorem runSchedule (hm : Shareable s.delimiter cmp m chunks) (hsort : IsSort cmp (s.arrange cmp))
    (schedule : List Nat) :
    SortsEach s.delimiter cmp m chunks
      (s.runSchedule cmp (Sorter.openWorkshop m chunks) schedule) := by
  refine Sorter.runSchedule_induction ?_ (openWorkshop ?_) schedule
  · intro w k i progress hk h
    exact h.step hm hsort hk
  · intro i hi
    obtain ⟨c, hc, -⟩ := hm.chunk i hi
    exact ⟨c, hc⟩

end SortsEach

namespace Shareable

variable {d : UInt8} {cmp : Record → Record → Ordering} {m : Memory} {chunks : List Nat}

/-- One of the chunks can be sorted alone. -/
theorem singleton (h : Shareable d cmp m chunks) {i : Nat} (hi : i ∈ chunks) :
    Shareable d cmp m [i] where
  wellFormed := h.wellFormed
  nodup := List.pairwise_singleton _ i
  chunk j hj := by
    obtain rfl := List.mem_singleton.1 hj
    exact h.chunk j hi
  noTies j hj := by
    obtain rfl := List.mem_singleton.1 hj
    exact h.noTies j hi

end Shareable

namespace Sorter

variable {s : Sorter} {cmp : Record → Record → Ordering} {m : Memory} {chunks : List Nat}

/-- Records have been saved in the cell of chunk `j` exactly if **the sort of some chunk in this cell** has
succeeded. -/
theorem savedIn_atEnd {schedule : List Nat} {j : Nat} {c : MemoryChunk} (hc : m.chunks[j]? = some c) :
    m.SavedIn (s.atEnd cmp schedule m chunks).workers c.cell ↔
      m.SortedIn chunks (s.sortChunksIn cmp schedule m chunks).1 j := by
  constructor
  · rintro ⟨i, c', n, hmem, hc', hcell⟩
    obtain ⟨k, hk⟩ := List.mem_iff_getElem?.1 hmem
    refine ⟨k, i, n, (ended_of_mem_atEnd hk).1, ?_, getElem?_sortChunksIn.2 ⟨i, hk⟩⟩
    exact Memory.sharesCell_iff.2 ⟨c', c, hc', hc, hcell⟩
  · rintro ⟨k, i, n, hk, hshares, houtcome⟩
    obtain ⟨c', c'', hc', hc'', hcell⟩ := Memory.sharesCell_iff.1 hshares
    rw [hc, Option.some.injEq] at hc''
    obtain ⟨i', hworker⟩ := getElem?_sortChunksIn.1 houtcome
    obtain ⟨hk', -⟩ := ended_of_mem_atEnd hworker
    rw [hk, Option.some.injEq] at hk'
    subst hk'
    exact ⟨i, c', n, List.mem_of_getElem? hworker, hc', hcell.trans (congrArg _ hc''.symm)⟩

variable [Std.TransCmp cmp]

/-- At the end the invariant holds and all workers have ended. -/
theorem sortsEach_atEnd (hm : Shareable s.delimiter cmp m chunks) (hsort : IsSort cmp (s.arrange cmp))
    (schedule : List Nat) :
    SortsEach s.delimiter cmp m chunks (s.atEnd cmp schedule m chunks) ∧
      AllEnded (s.atEnd cmp schedule m chunks) := by
  refine ⟨.runSchedule hm hsort _, ?_⟩
  intro worker hmem
  obtain ⟨k, hk⟩ := List.mem_iff_getElem?.1 hmem
  exact (ended_of_mem_atEnd hk).2

/-- The end **does not depend on the schedule**. -/
theorem atEnd_eq_atEnd (hm : Shareable s.delimiter cmp m chunks) (hsort : IsSort cmp (s.arrange cmp))
    (schedule schedule' : List Nat) :
    s.atEnd cmp schedule m chunks = s.atEnd cmp schedule' m chunks := by
  obtain ⟨hend, hended⟩ := sortsEach_atEnd hm hsort schedule
  obtain ⟨hend', hended'⟩ := sortsEach_atEnd hm hsort schedule'
  exact hend.eq_of_ended hend' hended hended'

/-- The outcome of a chunk follows from its script and its records. -/
theorem outcome_sortChunksIn (hm : Shareable s.delimiter cmp m chunks)
    (hsort : IsSort cmp (s.arrange cmp)) (schedule : List Nat) {k i : Nat} {c : MemoryChunk}
    (hk : chunks[k]? = some i) (hc : m.chunks[i]? = some c) :
    (s.sortChunksIn cmp schedule m chunks).1[k]? =
      some (c.sortOutcome s.delimiter (sortRecords cmp (decode s.delimiter (m.content i)))) := by
  obtain ⟨hend, hended⟩ := sortsEach_atEnd hm hsort schedule
  obtain ⟨c', hc', -, hworker⟩ := hend.of_ended hended hk
  rw [hc, Option.some.injEq] at hc'
  subst hc'
  exact getElem?_sortChunksIn.2 ⟨i, hworker⟩

/-- **The outcome of a chunk is that of its own sort**, also where it shares its cell. -/
theorem outcome_eq_sortBy (hm : Shareable s.delimiter cmp m chunks)
    (hsort : IsSort cmp (s.arrange cmp)) (schedule : List Nat) {k i : Nat}
    (hk : chunks[k]? = some i) :
    (s.sortChunksIn cmp schedule m chunks).1[k]? = some (s.chunkSorter.sortBy cmp m i).1 := by
  have hi := List.mem_of_getElem? hk
  obtain ⟨c, hc, -⟩ := hm.chunk i hi
  have hown : (s.sortChunksIn cmp [] m [i]).1[0]? = some (s.chunkSorter.sortBy cmp m i).1 := by
    rw [sortChunksIn_nil]
    rfl
  rw [outcome_sortChunksIn (hm.singleton hi) hsort [] rfl hc] at hown
  rw [outcome_sortChunksIn hm hsort schedule hk hc, hown]

/-- **The schedule makes no difference** to the sort of chunks, of which some may share cells, refuse to be
opened or fail to be replaced:

* the outcomes, and with them the first failure, and the whole memory are those of sorting the chunks one
  after the other;
* the outcome of every chunk is that of its own sort on the memory as it was at first, and the count is the
  number of its records;
* a content has its records in order if some sort on it has succeeded, and is as it was otherwise. -/
theorem sortChunksIn_eq_sortChunks (s : Sorter) (cmp : Record → Record → Ordering)
    [Std.TransCmp cmp] (hsort : IsSort cmp (s.arrange cmp)) (m : Memory) (chunks : List Nat)
    (hm : Shareable s.delimiter cmp m chunks) (schedule : List Nat) :
    let sorted := s.sortChunksIn cmp schedule m chunks
    sorted = s.sortChunks cmp m chunks ∧
      (∀ (k i : Nat), chunks[k]? = some i →
        sorted.1[k]? = some (s.chunkSorter.sortBy cmp m i).1 ∧
          ∀ n, sorted.1[k]? = some (Except.ok n) → n = (decode s.delimiter (m.content i)).length) ∧
      ∀ j,
        (m.SortedIn chunks sorted.1 j →
          sorted.2.content j =
            encode s.delimiter (sortRecords cmp (decode s.delimiter (m.content j)))) ∧
        (¬ m.SortedIn chunks sorted.1 j → sorted.2.content j = m.content j) := by
  intro sorted
  obtain ⟨hend, hended⟩ := sortsEach_atEnd hm hsort schedule
  refine ⟨?_, ?_, ?_⟩
  · have hsame := atEnd_eq_atEnd hm hsort schedule []
    calc sorted
        = ((s.atEnd cmp schedule m chunks).workers.filterMap (·.2.outcome?),
            (s.atEnd cmp schedule m chunks).store) := rfl
      _ = s.sortChunksIn cmp [] m chunks := by rw [hsame]; rfl
      _ = s.sortChunks cmp m chunks := s.sortChunksIn_nil cmp m chunks
  · intro k i hk
    refine ⟨outcome_eq_sortBy hm hsort schedule hk, ?_⟩
    intro n hn
    obtain ⟨i', hworker⟩ := getElem?_sortChunksIn.1 hn
    obtain ⟨hk', -⟩ := ended_of_mem_atEnd hworker
    rw [hk, Option.some.injEq] at hk'
    subst hk'
    exact (hend.workers _ (List.mem_of_getElem? hworker)).2.1
  · intro j
    cases hc : m.chunks[j]? with
    | some c =>
      rw [← savedIn_atEnd hc]
      exact hend.content_of_cell hm.wellFormed hc
    -- a chunk that does not exist has no content and shares no cell
    | none =>
      constructor
      · rintro ⟨k, i, n, -, hshares, -⟩
        obtain ⟨c, c', -, hc', -⟩ := Memory.sharesCell_iff.1 hshares
        rw [hc] at hc'
        contradiction
      · intro _
        have hj : j ∉ chunks := by
          intro hj
          obtain ⟨c, hc', -⟩ := hm.chunk j hj
          rw [hc] at hc'
          contradiction
        have hnone : sorted.2.chunks[j]? = none := (hend.others j hj).trans hc
        rw [Memory.content, Memory.content, hnone, hc]

/-- Four chunks in one cell. The second one cannot be opened, and a replacement of the third one cannot be
committed. -/
def crowdedMemory : Memory :=
  (((({} : Memory).add [98, 10, 97] [.serve [.upTo 1]] []).share 0 [.refuse (.system .noEntry)]
    []).share 0 [] [{ commitError := some (.system .busy) }]).share 0 [] [{ plan := [.upTo 3] }]

/-- The last worker saves what it has loaded before the first one saved the same records, and both
replacements are staged at the same time. -/
theorem sortChunksIn_eq_sortChunks_crowdedMemory :
    let sorted := ({} : Sorter).sortChunksIn Record.byteOrder [3, 0, 0, 2, 1, 3, 0, 3] crowdedMemory
      [0, 1, 2, 3]
    sorted = ({} : Sorter).sortChunks Record.byteOrder crowdedMemory [0, 1, 2, 3] ∧
      sorted.2.content 2 = [97, 10, 98, 10] := by
  intro sorted
  have hshareable : Shareable newline Record.byteOrder crowdedMemory [0, 1, 2, 3] := by
    refine ⟨((((Memory.wellFormed_empty.add _ _ _).share _ _ _).share _ _ _).share _ _ _),
      by decide, ?_, fun i _ a _ b _ hab => Record.eq_of_byteOrder_eq hab⟩
    intro i hi
    simp only [List.mem_cons, List.not_mem_nil, or_false] at hi
    rcases hi with rfl | rfl | rfl | rfl <;> refine ⟨_, rfl, ?_⟩ <;> intro plan hopening
    · obtain rfl := Opening.serve.inj hopening
      decide
    · contradiction
    · obtain rfl := Opening.serve.inj hopening
      decide
    · obtain rfl := Opening.serve.inj hopening
      decide
  obtain ⟨hsame, houtcome, hcontent⟩ := sortChunksIn_eq_sortChunks {} Record.byteOrder
    isSort_sortRecords crowdedMemory [0, 1, 2, 3] hshareable [3, 0, 0, 2, 1, 3, 0, 3]
  refine ⟨hsame, ((hcontent 2).1 ?_).trans ?_⟩
  -- the first worker has ended well
  · have hfirst : ∃ n,
        (({} : Sorter).chunkSorter.sortBy Record.byteOrder crowdedMemory 0).1 = .ok n := by
      rw [ChunkSorter.sortBy, ChunkSorter.load_of_harmless rfl rfl (by decide)]
      refine ⟨_, congrArg Prod.fst (ChunkSorter.save_of_none rfl ?_)⟩
      rw [MemoryChunk.saveError?, saveRecords_of_harmless (by decide) fun e => List.not_mem_nil]
      rfl
    obtain ⟨n, hn⟩ := hfirst
    exact ⟨0, 0, n, rfl, rfl, (houtcome 0 0 rfl).1.trans (congrArg some hn)⟩
  · rw [show decode newline (crowdedMemory.content 2) = [[98], [97]] by decide]
    simp +decide [sortRecords, List.mergeSort]

end Sorter

end RecordSort
