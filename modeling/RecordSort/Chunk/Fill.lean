import RecordSort.Chunk.Store

/-! # Programs that fill a replacement

A **fill** is a program that writes the new content of a chunk. Between its writes it may look at the
store and change it, also by replacing chunks, the one it fills included, while its own replacement is
still staged. What it sees on the way is its *report*.

* **`Fill`** — the programs, built from writes, flushes, acts on the store and nested replacements.
* **`Fill.run`** — runs a program on the sink of the replacement it fills.
* **`Fill.replace`** — a whole replacement filled by a program. -/

namespace RecordSort

/-- A **program that fills a replacement**, where chunks are named by `Chunk` and the acts on the store
are those of `Act`. -/
inductive Fill (Chunk Act : Type)
  /-- The replacement is filled. -/
  | done
  /-- Filling it fails. -/
  | fail (error : StreamError)
  /-- Writes bytes, then goes on; an error of the sink ends the program. -/
  | write (bytes : Bytes) (rest : Fill Chunk Act)
  /-- Flushes the sink, then goes on; an error of the sink ends the program. -/
  | flush (rest : Fill Chunk Act)
  /-- Acts on the store, then goes on. -/
  | act (what : Act) (rest : Fill Chunk Act)
  /-- Replaces a chunk by what another program writes, then goes on whether that failed or not. -/
  | replace (chunk : Chunk) (inner rest : Fill Chunk Act)
  deriving DecidableEq, Repr

/-- What a program saw, in order: sights of the store, and the outcomes of nested replacements with
what their own programs saw. -/
inductive Report (Sight : Type)
  /-- There is nothing more to report. -/
  | nil
  /-- Something seen of the store. -/
  | sight (what : Sight) (rest : Report Sight)
  /-- A nested replacement. -/
  | nested (outcome : Except StreamError Unit) (inner rest : Report Sight)
  deriving DecidableEq

/-- How a program ended: its outcome, the sink, the store and what it saw. -/
structure Filled (ω Sight : Type) where
  /-- Whether the replacement is filled. -/
  outcome : Except StreamError Unit
  /-- The sink of the replacement. -/
  sink : ByteSink
  /-- The store. -/
  store : ω
  /-- What the program saw. -/
  report : Report Sight

namespace Fill

variable {ω Chunk Staged Act Sight : Type} [ChunkStore ω Chunk Staged]

/-- The report with a sight before it, if there was anything to see. -/
def note (sight : Option Sight) (filled : Filled ω Sight) : Filled ω Sight :=
  match sight with
  | none => filled
  | some s => { filled with report := .sight s filled.report }

/-- **Runs a program** on the sink of the replacement it fills. `perform` says what an act shows and
does. -/
def run (perform : Act → ω → Option Sight × ω) :
    Fill Chunk Act → ByteSink → ω → Filled ω Sight
  | .done, sink, store => ⟨.ok (), sink, store, .nil⟩
  | .fail e, sink, store => ⟨.error e, sink, store, .nil⟩
  | .write bytes rest, sink, store =>
    match sink.writeAll bytes with
    | (.ok (), sink') => run perform rest sink' store
    | (.error e, sink') => ⟨.error e, sink', store, .nil⟩
  | .flush rest, sink, store =>
    match sink.flush with
    | (.ok (), sink') => run perform rest sink' store
    | (.error e, sink') => ⟨.error e, sink', store, .nil⟩
  | .act what rest, sink, store =>
    match perform what store with
    | (sight, store') => note sight (run perform rest sink store')
  | .replace chunk inner rest, sink, store =>
    match ChunkStore.stage store chunk with
    | (.error e, store') =>
      let after := run perform rest sink store'
      { after with report := .nested (.error e) .nil after.report }
    | (.ok (staged, sink'), store') =>
      let filled := run perform inner sink' store'
      match ChunkStore.conclude chunk staged (filled.outcome, filled.sink, filled.store) with
      | (outcome, store'') =>
        let after := run perform rest sink store''
        { after with report := .nested outcome filled.report after.report }

/-- **Replaces the content of a chunk** by what a program writes. The answer is the outcome, the store
and what the program saw. -/
def replaceBy (perform : Act → ω → Option Sight × ω) (store : ω) (chunk : Chunk)
    (fill : Fill Chunk Act) : Except StreamError Unit × ω × Report Sight :=
  match ChunkStore.stage store chunk with
  | (.error e, store') => (.error e, store', .nil)
  | (.ok (staged, sink), store') =>
    let filled := run perform fill sink store'
    match ChunkStore.conclude chunk staged (filled.outcome, filled.sink, filled.store) with
    | (outcome, store'') => (outcome, store'', filled.report)

end Fill

end RecordSort
