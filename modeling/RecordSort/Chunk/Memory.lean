import RecordSort.Chunk.Fill

/-! # Chunks in memory

A **memory** keeps chunks whose contents lie in cells. Several chunks may share a cell; replacing the
content of one of them replaces it for all. Every chunk has a script of its own that lays down how its
coming openings and replacements go. It counts how often it was opened and replaced, and keeps the sinks
of the replacements that have ended.

* **`Memory.add`**, **`Memory.share`** — a new chunk with a content of its own, or with the content of
  another one.
* **`Memory.content`** — the content of a chunk.
* The openings read a snapshot of the content; a staged replacement lies in no cell until it is
  committed. -/

namespace RecordSort

/-- How an opening goes. -/
inductive Opening
  /-- The reader follows a schedule of transfers. -/
  | serve (plan : List Transfer)
  /-- The chunk cannot be opened. -/
  | refuse (error : StreamError)
  deriving DecidableEq, Repr

/-- How a replacement goes. -/
structure Replacing where
  /-- The schedule of the offers to the sink. -/
  plan : List Transfer := []
  /-- The schedule of the flushes of the sink. -/
  flushPlan : List Transfer := []
  /-- The error with which the commit fails, if it does. -/
  commitError : Option StreamError := none
  deriving DecidableEq, Repr

/-- A chunk of a memory. -/
structure MemoryChunk where
  /-- The number of the cell that holds the content. -/
  cell : Nat
  /-- How the coming openings go, in order; further ones succeed. -/
  openings : List Opening := []
  /-- How the coming replacements go, in order; further ones succeed. -/
  replacings : List Replacing := []
  /-- How often the chunk was opened, failed calls included. -/
  opened : Nat := 0
  /-- How often the chunk was to be replaced, failed calls included. -/
  replaced : Nat := 0
  /-- The sinks of the replacements that have ended, committed or not, as they were then, the latest
  first. -/
  sinks : List ByteSink := []

/-- A **memory**: cells and the chunks that refer to them. -/
structure Memory where
  /-- The contents, by cell number. -/
  cells : List Bytes := []
  /-- The chunks, by chunk number. -/
  chunks : List MemoryChunk := []

namespace Memory

/-- The content of a chunk; a chunk that does not exist has none. -/
def content (m : Memory) (chunk : Nat) : Bytes :=
  match m.chunks[chunk]? with
  | none => []
  | some c => m.cells.getD c.cell []

/-- Adds a chunk with a content of its own. -/
def add (m : Memory) (data : Bytes) (openings : List Opening) (replacings : List Replacing) :
    Memory where
  cells := m.cells ++ [data]
  chunks := m.chunks ++
    [{ cell := m.cells.length, openings := openings, replacings := replacings }]

/-- Adds a chunk that shares the content of another one. -/
def share (m : Memory) (chunk : Nat) (openings : List Opening) (replacings : List Replacing) :
    Memory :=
  match m.chunks[chunk]? with
  | none => m
  | some c =>
    { m with
      chunks := m.chunks ++ [{ cell := c.cell, openings := openings, replacings := replacings }] }

/-- Opens a chunk: the reader gets a **snapshot** of the content. -/
def openRead (m : Memory) (chunk : Nat) : Except StreamError ByteSource × Memory :=
  match m.chunks[chunk]? with
  | none => (.error (.system .noEntry), m)
  | some c =>
    let m' := { m with
      chunks := m.chunks.set chunk
        { c with openings := c.openings.tail, opened := c.opened + 1 } }
    match c.openings.head? with
    | none => (.ok { data := m.content chunk }, m')
    | some (.serve plan) => (.ok { data := m.content chunk, plan := plan }, m')
    | some (.refuse e) => (.error e, m')

/-- Begins a replacement; it is known by the error that its commit is to fail with, if any. -/
def stage (m : Memory) (chunk : Nat) :
    Except StreamError (Option StreamError × ByteSink) × Memory :=
  match m.chunks[chunk]? with
  | none => (.error (.system .noEntry), m)
  | some c =>
    let replacing := c.replacings.headD {}
    (.ok (replacing.commitError, { plan := replacing.plan, flushPlan := replacing.flushPlan }),
      { m with
        chunks := m.chunks.set chunk
          { c with replacings := c.replacings.tail, replaced := c.replaced + 1 } })

/-- Gives a chunk a new content. -/
def setContent (m : Memory) (chunk : Nat) (data : Bytes) : Memory :=
  match m.chunks[chunk]? with
  | none => m
  | some c => { m with cells := m.cells.set c.cell data }

/-- Keeps the sink of a replacement that ends. -/
def keepSink (m : Memory) (chunk : Nat) (sink : ByteSink) : Memory :=
  match m.chunks[chunk]? with
  | none => m
  | some c => { m with chunks := m.chunks.set chunk { c with sinks := sink :: c.sinks } }

/-- Ends a replacement that is filled. -/
def commit (m : Memory) (chunk : Nat) (commitError : Option StreamError) (sink : ByteSink) :
    Except StreamError Unit × Memory :=
  match commitError with
  | some e => (.error e, m.keepSink chunk sink)
  | none => (.ok (), (m.keepSink chunk sink).setContent chunk sink.contents)

/-- A number names the chunk of a memory; a replacement is known by the error with which its commit is to fail.
-/
instance : ChunkStore Memory Nat (Option StreamError) where
  openRead := openRead
  stage := stage
  commit := commit
  discard m chunk _ sink := m.keepSink chunk sink

/-! ## Filling replacements -/

/-- What a program that fills a replacement can do to a memory besides replacing chunks: look at the
content of a chunk. -/
inductive Act
  | look (chunk : Nat)
  deriving DecidableEq, Repr

/-- Looking at a chunk shows its content. -/
def perform : Act → Memory → Option Bytes × Memory
  | .look chunk, m => (some (m.content chunk), m)

end Memory

end RecordSort
