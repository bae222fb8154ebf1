import RecordSort.Chunk.Memory

/-! # Completed replacements

A replacement counts from the moment at which it is *completed*, that is, filled and committed. This
file tells from the text of a program that fills a replacement which replacements are completed on the
way, and in which order, as long as no sink and no commit fails; and it tells the contents of a memory
from such a list. A program is not run for it.

* **`Fill.ending`**, **`Fill.written`** — how a program ends, and the bytes that it writes itself.
* **`Fill.completed`** — the replacements that are completed while the program runs, in order.
* **`Memory.contentAfter`** — the content of a chunk once replacements are completed: what the last one
  of its cell has staged.
* **`Memory.foresee`** — what a program will see of a memory. -/

namespace RecordSort

/-- A **completed replacement**: a chunk, and the content that was staged for it. -/
structure Completed (Chunk : Type) where
  /-- The chunk that was replaced. -/
  chunk : Chunk
  /-- Its new content. -/
  content : Bytes
  deriving DecidableEq, Repr

namespace Fill

variable {Chunk Act : Type}

/-- How a program **ends** by its own steps. Nested replacements have no part in it. -/
def ending : Fill Chunk Act → Except StreamError Unit
  | .done => .ok ()
  | .fail e => .error e
  | .write _ rest | .flush rest | .act _ rest | .replace _ _ rest => rest.ending

/-- The bytes that a program **writes** itself, in order. What nested replacements write is not among
them. -/
def written : Fill Chunk Act → Bytes
  | .done | .fail _ => []
  | .write bytes rest => bytes ++ rest.written
  | .flush rest | .act _ rest | .replace _ _ rest => rest.written

/-- The replacement of a chunk filled by a program, if it is completed. -/
def completion (chunk : Chunk) (fill : Fill Chunk Act) : List (Completed Chunk) :=
  match fill.ending with
  | .ok () => [⟨chunk, fill.written⟩]
  | .error _ => []

/-- The replacements that are **completed while a program runs**, in order: those that a nested program
makes come before the one it fills. -/
def completed : Fill Chunk Act → List (Completed Chunk)
  | .done | .fail _ => []
  | .write _ rest | .flush rest | .act _ rest => rest.completed
  | .replace chunk inner rest => inner.completed ++ completion chunk inner ++ rest.completed

/-- What a nested replacement completes comes before what the rest does, and its own completion comes behind
what its program completes. -/
@[simp] theorem completed_replace (chunk : Chunk) (inner rest : Fill Chunk Act) :
    (replace chunk inner rest).completed =
      inner.completed ++ completion chunk inner ++ rest.completed := rfl

end Fill

namespace Memory

/-- Whether two chunks have their content in the same cell. -/
def sharesCell (m : Memory) (a b : Nat) : Bool :=
  match m.chunks[a]?, m.chunks[b]? with
  | some c, some d => c.cell = d.cell
  | _, _ => false

/-- The content of a chunk **once replacements are completed**: each of its cell gives it another
content, so that the last one counts. -/
def contentAfter (m : Memory) (chunk : Nat) (completed : List (Completed Nat)) : Bytes :=
  completed.foldl (fun content r => if m.sharesCell r.chunk chunk then r.content else content)
    (m.content chunk)

/-- **What a program will see** of a memory in which the given replacements are completed already. -/
def foresee (m : Memory) (before : List (Completed Nat)) : Fill Nat Act → Report Bytes
  | .done | .fail _ => .nil
  | .write _ rest | .flush rest => m.foresee before rest
  | .act (.look chunk) rest => .sight (m.contentAfter chunk before) (m.foresee before rest)
  | .replace chunk inner rest =>
    .nested inner.ending (m.foresee before inner)
      (m.foresee (before ++ inner.completed ++ Fill.completion chunk inner) rest)

/-- **The last completed replacement counts**: of a chunk in its cell it tells the content, and the
other chunks hold what they held before it. -/
theorem contentAfter_concat (m : Memory) (chunk : Nat) (before : List (Completed Nat))
    (r : Completed Nat) :
    m.contentAfter chunk (before ++ [r]) =
      if m.sharesCell r.chunk chunk then r.content else m.contentAfter chunk before := by
  simp [contentAfter]

end Memory

end RecordSort
