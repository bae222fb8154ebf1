import RecordSort.Stream.Source
import RecordSort.Stream.Sink

/-! # Stores of chunks

A **chunk** is a byte string that is read from its start and replaced as a whole. A replacement is
*staged* first: what is written goes to a sink of its own, and the chunk keeps its content until the
replacement is committed. A replacement that fails is discarded.

* **`ChunkStore`** — a state that keeps chunks, with the four operations on them.
* **`replace`** — stages a replacement, lets a caller fill it, and commits or discards it. -/

namespace RecordSort

/-- A **store of chunks** with states `ω`. A `Chunk` names a chunk of the store, and a `Staged` value
names a replacement that is being filled. -/
class ChunkStore (ω : Type) (Chunk Staged : outParam Type) where
  /-- Opens a chunk for reading from its start. -/
  openRead : ω → Chunk → Except StreamError ByteSource × ω
  /-- Begins a replacement of a chunk: the sink takes up the new content. -/
  stage : ω → Chunk → Except StreamError (Staged × ByteSink) × ω
  /-- Gives a chunk the content that the sink has taken up. -/
  commit : ω → Chunk → Staged → ByteSink → Except StreamError Unit × ω
  /-- Gives a replacement up, with what the sink has taken up. -/
  discard : ω → Chunk → Staged → ByteSink → ω

namespace ChunkStore

variable {ω Chunk Staged : Type} [ChunkStore ω Chunk Staged]

/-- Ends a replacement: it is **committed** if it was filled and **discarded** if filling it failed. -/
def conclude (chunk : Chunk) (staged : Staged) :
    Except StreamError Unit × ByteSink × ω → Except StreamError Unit × ω
  | (.ok (), sink, store) => commit store chunk staged sink
  | (.error e, sink, store) => (.error e, discard store chunk staged sink)

/-- **Replaces the content of a chunk** by what `fill` writes to the sink it is given. If `fill` fails,
the content stays as it is. -/
def replace (store : ω) (chunk : Chunk)
    (fill : ByteSink → ω → Except StreamError Unit × ByteSink × ω) : Except StreamError Unit × ω :=
  match stage store chunk with
  | (.error e, store') => (.error e, store')
  | (.ok (staged, sink), store') => conclude chunk staged (fill sink store')

end ChunkStore

end RecordSort
