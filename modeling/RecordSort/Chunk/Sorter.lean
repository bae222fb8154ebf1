import RecordSort.Chunk.Store
import RecordSort.Record.Writer

/-! # Sorting one chunk

The records of a chunk are loaded, put in order and written back in place of its content. The content
is replaced only after every record has been read, and by all of the records or not at all.

* **`sortRecords`** — the stable sort of a list of records. A sorter may put records in order in another
  way, as long as that is a permutation in order; equal records may then change places.
* **`ChunkSorter.load`** — the records of a chunk.
* **`saveRecords`** — writes records to a sink and flushes it.
* **`ChunkSorter.stage`**, **`ChunkSorter.save`** — replaces the content of a chunk by records, the first up to
  the end of the replacement; `save_eq_stage` says so.
* **`ChunkSorter.sortBy`** — sorts a chunk and answers how many records it holds. -/

namespace RecordSort

/-- The **stable sort** of a list of records under a comparison. -/
def sortRecords (cmp : Record → Record → Ordering) (rs : List Record) : List Record :=
  rs.mergeSort fun a b => (cmp a b).isLE

/-- Writes records to a sink, each followed by the delimiter, and flushes the sink once all of them are
written. -/
def saveRecords (delimiter : UInt8) (rs : List Record) (sink : ByteSink) :
    Except StreamError Unit × ByteSink :=
  match ({ sink := sink, delimiter := delimiter } : RecordWriter).writeRecords rs with
  | (.ok (), w) => w.sink.flush
  | (.error e, w) => (.error e, w.sink)

/-- The settings of a sort of one chunk. -/
structure ChunkSorter where
  /-- The number of bytes to ask for at a time. -/
  bufferSize : Nat := defaultCapacity
  /-- The byte that ends a record. -/
  delimiter : UInt8 := newline
  /-- How records are put in order under a comparison. -/
  arrange : (Record → Record → Ordering) → List Record → List Record := sortRecords

namespace ChunkSorter

variable {ω Chunk Staged : Type} [ChunkStore ω Chunk Staged]

/-- A reader of the records that a source holds. -/
def reader (s : ChunkSorter) (source : ByteSource) : RecordReader :=
  { source := source, capacity := s.bufferSize, delimiter := s.delimiter }

/-- **Loads** the records of a chunk. -/
def load (s : ChunkSorter) (store : ω) (chunk : Chunk) : Except StreamError (List Record) × ω :=
  match ChunkStore.openRead store chunk with
  | (.error e, store') => (.error e, store')
  | (.ok source, store') =>
    let out := drain (s.reader source)
    (out.outcome.map fun _ => out.records, store')

/-- **Begins to save** records: a replacement of the content of a chunk is staged, and the records are written
to its sink. The answer says how that went; the chunk still has its content. -/
def stage (s : ChunkSorter) (store : ω) (chunk : Chunk) (rs : List Record) :
    Except StreamError (Staged × Except StreamError Unit × ByteSink) × ω :=
  match ChunkStore.stage store chunk with
  | (.error e, store') => (.error e, store')
  | (.ok (staged, sink), store') => (.ok (staged, saveRecords s.delimiter rs sink), store')

/-- Replaces the content of a chunk by records, and answers how many these are. -/
def save (s : ChunkSorter) (store : ω) (chunk : Chunk) (rs : List Record) :
    Except StreamError Nat × ω :=
  match ChunkStore.replace store chunk fun sink store' =>
      let saved := saveRecords s.delimiter rs sink
      (saved.1, saved.2, store') with
  | (outcome, store') => (outcome.map fun _ => rs.length, store')

/-- Saving records **ends the replacement that has begun**. -/
theorem save_eq_stage (s : ChunkSorter) (store : ω) (chunk : Chunk) (rs : List Record) :
    s.save store chunk rs =
      match s.stage store chunk rs with
      | (.error e, store') => (.error e, store')
      | (.ok (staged, outcome, sink), store') =>
        let ended := ChunkStore.conclude chunk staged (outcome, sink, store')
        (ended.1.map fun _ => rs.length, ended.2) := by
  rw [save, stage, ChunkStore.replace]
  rcases ChunkStore.stage store chunk with ⟨e | ⟨staged, sink⟩, store'⟩ <;> rfl

/-- **Sorts a chunk** and answers how many records it holds. The chunk is not replaced unless all its
records could be loaded. -/
def sortBy (s : ChunkSorter) (cmp : Record → Record → Ordering) (store : ω) (chunk : Chunk) :
    Except StreamError Nat × ω :=
  match s.load store chunk with
  | (.error e, store') => (.error e, store')
  | (.ok rs, store') => s.save store' chunk (s.arrange cmp rs)

end ChunkSorter

end RecordSort
