import RecordSort.Stream.Error

/-! # Errors of a sort

A sort of many chunks ends with the first error of the phase it is in. The error says which phase that
is and, where one chunk is to blame, which one. -/

namespace RecordSort

/-- Why the workers that sort the chunks cannot be started. -/
inductive WorkerError
  /-- There is a set of workers already. -/
  | alreadyInitialized
  deriving DecidableEq, Repr

/-- The words of the error. -/
def WorkerError.text : WorkerError → String
  | alreadyInitialized => "The global thread pool has already been initialized."

/-- The **error of a sort**, by the phase in which it arose. -/
inductive SortError
  /-- The workers cannot be started. -/
  | threadPool (cause : WorkerError)
  /-- A chunk cannot be sorted. -/
  | chunkSort (index : Nat) (cause : StreamError)
  /-- A sorted chunk cannot be opened. -/
  | chunkOpen (index : Nat) (cause : StreamError)
  /-- A sorted chunk cannot be read, or the output cannot be written. -/
  | merge (cause : StreamError)
  deriving DecidableEq, Repr

namespace SortError

/-- The number of the chunk to blame, if it is one. -/
def index? : SortError → Option Nat
  | chunkSort i _ | chunkOpen i _ => some i
  | threadPool _ | merge _ => none

/-- The stream error behind the error, if it is one. -/
def cause? : SortError → Option StreamError
  | chunkSort _ e | chunkOpen _ e | merge e => some e
  | threadPool _ => none

/-- The words of the error behind the error. -/
def causeText : SortError → String
  | threadPool e => e.text
  | chunkSort _ e | chunkOpen _ e | merge e => e.text

/-- The words of the error: the phase, the chunk and the cause. -/
def message : SortError → String
  | threadPool e => s!"thread pool initialization failed: {e.text}"
  | chunkSort i e => s!"chunk {i} sorting failed: {e.text}"
  | chunkOpen i e => s!"chunk {i} could not be opened: {e.text}"
  | merge e => s!"chunks merging failed: {e.text}"

end SortError

end RecordSort
