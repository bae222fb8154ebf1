import RecordSort.Sort.Sorter

/-! # Schedules of chunk sorts

When several workers sort chunks at the same time, each of them takes three steps on the store: it loads
the records of its chunk, later it stages a replacement and writes the records to its sink in order, and
still later it ends the replacement. In between other workers may take steps, so that many replacements may
be staged at the same time. A **schedule** says in which order the workers take their steps; a worker that
is named takes the step it has come to.

* **`Sorter.advance`** — one step of one worker.
* **`Sorter.runSchedule`** — the steps of a schedule.
* **`Sorter.oneByOne`** — the schedule in which every worker ends before the next one begins;
  `runSchedule_oneByOne` says that it gives what `sortChunks` gives.
* **`Sorter.sortChunksIn`**, **`Sorter.sortIn`** — the sort of the chunks, and the whole sort, when the
  workers take their steps by a schedule. -/

namespace RecordSort

/-- How far the sort of one chunk has come, where `Staged` values name replacements. -/
inductive Progression (Staged : Type)
  /-- The chunk has not been read. -/
  | waiting
  /-- The records are loaded, put in order and not yet saved. -/
  | loaded (records : List Record)
  /-- A replacement is staged, and `count` records have been written to its sink, or writing them has
  failed. -/
  | staged (staged : Staged) (filled : Except StreamError Unit × ByteSink) (count : Nat)
  /-- The sort has ended. -/
  | ended (outcome : Except StreamError Nat)

/-- The outcome of a sort that has ended. -/
def Progression.outcome? {Staged : Type} : Progression Staged → Option (Except StreamError Nat)
  | .ended outcome => some outcome
  | .waiting | .loaded _ | .staged _ _ _ => none

/-- A store on which workers sort chunks. -/
structure Workshop (ω Chunk Staged : Type) where
  /-- The chunks. -/
  store : ω
  /-- Every worker's chunk, and how far it has come. -/
  workers : List (Chunk × Progression Staged)

namespace Sorter

variable {ω Chunk Staged : Type} [ChunkStore ω Chunk Staged]

/-- The next step of the sort of one chunk: **load**, then **stage** a replacement, then **conclude** it. -/
def stepWorker (s : Sorter) (cmp : Record → Record → Ordering) (store : ω) (chunk : Chunk) :
    Progression Staged → Progression Staged × ω
  | .waiting =>
    match s.chunkSorter.load store chunk with
    | (.ok rs, store') => (.loaded (s.chunkSorter.arrange cmp rs), store')
    | (.error e, store') => (.ended (.error e), store')
  | .loaded rs =>
    match s.chunkSorter.stage store chunk rs with
    | (.ok (staged, filled), store') => (.staged staged filled rs.length, store')
    | (.error e, store') => (.ended (.error e), store')
  | .staged staged filled count =>
    match ChunkStore.conclude chunk staged (filled.1, filled.2, store) with
    | (outcome, store') => (.ended (outcome.map fun _ => count), store')
  | .ended outcome => (.ended outcome, store)

/-- One step of the worker with the given number. -/
def advance (s : Sorter) (cmp : Record → Record → Ordering) (w : Workshop ω Chunk Staged) (i : Nat) :
    Workshop ω Chunk Staged :=
  match w.workers[i]? with
  | none => w
  | some (chunk, progress) =>
    let after := s.stepWorker cmp w.store chunk progress
    ⟨after.2, w.workers.set i (chunk, after.1)⟩

/-- The steps of a **schedule**, one after the other. -/
def runSchedule (s : Sorter) (cmp : Record → Record → Ordering) (w : Workshop ω Chunk Staged)
    (schedule : List Nat) : Workshop ω Chunk Staged :=
  schedule.foldl (s.advance cmp) w

/-- The store and the chunks before any worker has taken a step. -/
def openWorkshop (store : ω) (chunks : List Chunk) : Workshop ω Chunk Staged :=
  ⟨store, chunks.map fun chunk => (chunk, .waiting)⟩

/-- The schedule in which each of `n` workers, from number `index` on, takes its three steps before the
next one begins. -/
def oneByOne (index : Nat) : Nat → List Nat
  | 0 => []
  | n + 1 => index :: index :: index :: oneByOne (index + 1) n

/-- The three steps of one worker are the sort of its chunk. -/
theorem stepWorker_three (s : Sorter) (cmp : Record → Record → Ordering) (store : ω)
    (chunk : Chunk) :
    let first := s.stepWorker cmp store chunk .waiting
    let second := s.stepWorker cmp first.2 chunk first.1
    s.stepWorker cmp second.2 chunk second.1 =
      (.ended (s.chunkSorter.sortBy cmp store chunk).1, (s.chunkSorter.sortBy cmp store chunk).2) := by
  rw [ChunkSorter.sortBy]
  rcases hload : s.chunkSorter.load store chunk with ⟨e | rs, store'⟩
  · simp [stepWorker, hload]
  -- what is loaded is staged, and then the replacement ends
  · simp only [ChunkSorter.save_eq_stage]
    rcases hstage : s.chunkSorter.stage store' chunk (s.chunkSorter.arrange cmp rs) with
      ⟨e | ⟨staged, filled⟩, store''⟩ <;> simp [stepWorker, hload, hstage]

/-- The steps of a schedule are its first step and the others. -/
theorem runSchedule_cons (s : Sorter) (cmp : Record → Record → Ordering) (w : Workshop ω Chunk Staged)
    (i : Nat) (rest : List Nat) :
    s.runSchedule cmp w (i :: rest) = s.runSchedule cmp (s.advance cmp w i) rest := rfl

/-- Workers that end one by one leave what sorting the chunks one after the other leaves. -/
theorem runSchedule_oneByOne_append (s : Sorter) (cmp : Record → Record → Ordering)
    (done : List (Chunk × Progression Staged)) (store : ω) (chunks : List Chunk) :
    s.runSchedule cmp ⟨store, done ++ chunks.map fun chunk => (chunk, .waiting)⟩
        (oneByOne done.length chunks.length) =
      ⟨(s.sortChunks cmp store chunks).2,
        done ++ chunks.zipWith (fun chunk outcome => (chunk, .ended outcome))
          (s.sortChunks cmp store chunks).1⟩ := by
  induction chunks generalizing done store with
  | nil => simp [oneByOne, runSchedule, sortChunks]
  | cons chunk rest ih =>
    -- the first of the waiting workers takes its three steps and joins those that have ended
    have hstep := s.stepWorker_three cmp store chunk
    have := ih (done ++ [(chunk, .ended (s.chunkSorter.sortBy cmp store chunk).1)])
      (s.chunkSorter.sortBy cmp store chunk).2
    simp only [List.length_append, List.length_singleton, List.append_assoc,
      List.singleton_append] at this
    simp only [List.length_cons, List.map_cons, oneByOne, runSchedule_cons, sortChunks,
      List.zipWith_cons_cons]
    rw [← this]
    congr 1
    simp [advance, hstep]

/-- **One worker after the other** is the schedule of `sortChunks`. -/
theorem runSchedule_oneByOne (s : Sorter) (cmp : Record → Record → Ordering) (store : ω)
    (chunks : List Chunk) :
    s.runSchedule cmp (openWorkshop store chunks) (oneByOne 0 chunks.length) =
      ⟨(s.sortChunks cmp store chunks).2,
        chunks.zipWith (fun chunk outcome => (chunk, .ended outcome))
          (s.sortChunks cmp store chunks).1⟩ :=
  s.runSchedule_oneByOne_append cmp [] store chunks

/-! ### Sorting by a schedule -/

/-- Sorts chunks by workers that take their steps **as a schedule says**; the workers that have not ended
after it end one by one. -/
def sortChunksIn (s : Sorter) (cmp : Record → Record → Ordering) (schedule : List Nat) (store : ω)
    (chunks : List Chunk) : List (Except StreamError Nat) × ω :=
  let w := s.runSchedule cmp (openWorkshop store chunks) (schedule ++ oneByOne 0 chunks.length)
  (w.workers.filterMap (·.2.outcome?), w.store)

/-- Sorts chunks into an output, where the workers that sort the chunks take their steps as a schedule
says. -/
def sortIn (s : Sorter) (cmp : Record → Record → Ordering) (schedule : List Nat) (store : ω)
    (chunks : List Chunk) (output : ByteSink) : Sorted ω :=
  s.mergeChunks cmp chunks output (s.sortChunksIn cmp schedule store chunks)

/-- Every chunk has an outcome. -/
theorem length_sortChunks (s : Sorter) (cmp : Record → Record → Ordering) (store : ω)
    (chunks : List Chunk) : (s.sortChunks cmp store chunks).1.length = chunks.length := by
  induction chunks generalizing store with
  | nil => rfl
  | cons chunk rest ih => simp [sortChunks, ih]

/-- The outcomes of workers that have all ended. -/
theorem filterMap_outcome?_ended (chunks : List Chunk) (outcomes : List (Except StreamError Nat))
    (h : outcomes.length = chunks.length) :
    (chunks.zipWith (fun chunk outcome => (chunk, (.ended outcome : Progression Staged)))
      outcomes).filterMap (·.2.outcome?) = outcomes := by
  induction chunks generalizing outcomes with
  | nil => exact (List.length_eq_zero_iff.1 h).symm
  | cons c cs ih =>
    cases outcomes with
    | nil => simp at h
    | cons o os =>
      rw [List.zipWith_cons_cons, List.filterMap_cons, ih os (by simpa using h)]
      rfl

/-- Without a schedule the chunks are sorted one after the other. -/
@[simp] theorem sortChunksIn_nil (s : Sorter) (cmp : Record → Record → Ordering) (store : ω)
    (chunks : List Chunk) : s.sortChunksIn cmp [] store chunks = s.sortChunks cmp store chunks := by
  rw [sortChunksIn, List.nil_append, runSchedule_oneByOne,
    filterMap_outcome?_ended _ _ (s.length_sortChunks cmp store chunks)]

end Sorter

end RecordSort
