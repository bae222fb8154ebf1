import RecordSort.Chunk.Sorter
import RecordSort.Merge.Merger
import RecordSort.Record.Order
import RecordSort.Sort.Error

/-! # Sorting many chunks into one output

Every chunk is sorted on its own, and then the sorted chunks are merged into an output. All chunks are
sorted before any is opened for the merge, and all are opened before anything is written.

* **`Sorter.sortChunks`** — the first phase: the outcome for every chunk, whether others fail or not.
* **`Sorter.openChunks`** — the second phase: a reader for every chunk.
* **`Sorter.mergeChunks`** — the second phase and the merge that follows it.
* **`Sorter.sortBy`** — all phases; the first phase that fails ends the sort. -/

namespace RecordSort

/-- The settings of a sort. -/
structure Sorter where
  /-- The number of bytes to ask a chunk for at a time. -/
  bufferSize : Nat := defaultCapacity
  /-- The byte that ends a record. -/
  delimiter : UInt8 := newline
  /-- How the records of one chunk are put in order under a comparison. -/
  arrange : (Record → Record → Ordering) → List Record → List Record := sortRecords

/-- What a sort leaves: its outcome, the store and the output. -/
structure Sorted (ω : Type) where
  /-- The number of records written, or the error that ended the sort. -/
  outcome : Except SortError Nat
  /-- The chunks. -/
  store : ω
  /-- The sink of the output. -/
  output : ByteSink

namespace Sorter

variable {ω Chunk Staged : Type} [ChunkStore ω Chunk Staged]

/-- The settings of the sort of one chunk. -/
def chunkSorter (s : Sorter) : ChunkSorter :=
  { bufferSize := s.bufferSize, delimiter := s.delimiter, arrange := s.arrange }

/-- Sorts every chunk, whether others fail or not. -/
def sortChunks (s : Sorter) (cmp : Record → Record → Ordering) (store : ω) :
    List Chunk → List (Except StreamError Nat) × ω
  | [] => ([], store)
  | chunk :: rest =>
    match s.chunkSorter.sortBy cmp store chunk with
    | (outcome, store') =>
      let after := s.sortChunks cmp store' rest
      (outcome :: after.1, after.2)

/-- The **first failure** among outcomes, and its place counted from `index`. -/
def firstFailure (index : Nat) : List (Except StreamError Nat) → Option (Nat × StreamError)
  | [] => none
  | .ok _ :: rest => firstFailure (index + 1) rest
  | .error e :: _ => some (index, e)

/-- Opens chunks in order for reading, up to the first one that cannot be opened; `index` is the number
of the first of them. -/
def openChunks (s : Sorter) (index : Nat) (store : ω) :
    List Chunk → Except SortError (List RecordReader) × ω
  | [] => (.ok [], store)
  | chunk :: rest =>
    match ChunkStore.openRead store chunk with
    | (.error e, store') => (.error (.chunkOpen index e), store')
    | (.ok source, store') =>
      let after := s.openChunks (index + 1) store' rest
      (after.1.map (s.chunkSorter.reader source :: ·), after.2)

/-- Merges readers into the output and flushes it once everything is written. -/
def mergeInto (s : Sorter) (cmp : Record → Record → Ordering) (readers : List RecordReader)
    (output : ByteSink) : Except StreamError Nat × ByteSink :=
  match ({ sink := output, delimiter := s.delimiter } : RecordWriter).merge cmp readers with
  | (.error e, w, _) => (.error e, w.sink)
  | (.ok count, w, _) =>
    match w.sink.flush with
    | (.ok (), sink) => (.ok count, sink)
    | (.error e, sink) => (.error e, sink)

/-- What follows the sort of the chunks, given its outcomes and the store that it leaves: the chunks are
**opened and merged** into the output, unless one of them could not be sorted. -/
def mergeChunks (s : Sorter) (cmp : Record → Record → Ordering) (chunks : List Chunk)
    (output : ByteSink) (sorted : List (Except StreamError Nat) × ω) : Sorted ω :=
  -- the failure of the chunk with the least number is the one that is told
  match firstFailure 0 sorted.1 with
  | some (index, e) => ⟨.error (.chunkSort index e), sorted.2, output⟩
  | none =>
    match s.openChunks 0 sorted.2 chunks with
    | (.error e, store') => ⟨.error e, store', output⟩
    | (.ok readers, store') =>
      let merged := s.mergeInto cmp readers output
      ⟨merged.1.mapError .merge, store', merged.2⟩

/-- **Sorts chunks into an output** and answers how many records were written. Each chunk is left
sorted; what was written before an error stays written. -/
def sortBy (s : Sorter) (cmp : Record → Record → Ordering) (store : ω) (chunks : List Chunk)
    (output : ByteSink) : Sorted ω :=
  s.mergeChunks cmp chunks output (s.sortChunks cmp store chunks)

/-- Sorts chunks into an output in byte order. -/
def sort (s : Sorter) (store : ω) (chunks : List Chunk) (output : ByteSink) : Sorted ω :=
  s.sortBy Record.byteOrder store chunks output

end Sorter

end RecordSort
