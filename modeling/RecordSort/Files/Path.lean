import RecordSort.Record.Format

/-! # Names and paths

A **path** is a text whose pieces between slashes are taken one after the other: `.` stays where one
is, `..` goes up, and any other piece is the *name* of an entry. Empty pieces do not count, but a slash
at the end says that the last piece is to be a directory.

* **`Name`** — a name of an entry; the names of staging files are drawn at random, and they are told apart
  from all names that a path can spell.
* **`Path.ofText`** — the path that a text spells.
* **`Path.folderText`** — the text of the way to the directory in which the entry that a path names lies. -/

namespace RecordSort

/-- The **name of an entry** of a directory. -/
inductive Name
  /-- A name that a path can spell. -/
  | plain (text : String)
  /-- The name of a staging file, which is drawn at random: no path spells it. -/
  | staging (number : Nat)
  deriving DecidableEq, Repr

namespace Name

/-- The name as it is listed. -/
def text : Name → String
  | plain t => t
  | staging n => s!".staging/{n}"

/-- The longest name that a directory can hold, in bytes. -/
def maxLength : Nat := 255

/-- The number of bytes of the name; that of a staging file is always short. -/
def length : Name → Nat
  | plain t => t.utf8ByteSize
  | staging _ => 10

end Name

/-- One **piece of a path**. -/
inductive Segment
  /-- Stays in the directory. -/
  | here
  /-- Goes to the directory above. -/
  | up
  /-- Goes to an entry of the directory. -/
  | entry (name : Name)
  /-- Only asks for a directory to be there. -/
  | slash
  deriving DecidableEq, Repr

namespace Segment

/-- The piece that a text between slashes spells. -/
def ofText (t : String) : Segment :=
  if t = "." then here else if t = ".." then up else entry (.plain t)

end Segment

/-- A **path**, taken apart. -/
structure Path where
  /-- Whether it starts at the root. -/
  absolute : Bool
  /-- Its pieces. -/
  segments : List Segment
  /-- Whether a slash ends it. -/
  slashed : Bool
  deriving DecidableEq, Repr

namespace Path

/-- The longest path that the system takes, in bytes. -/
def maxLength : Nat := 4095

/-- The path that a text spells. -/
def ofText (t : String) : Path where
  absolute := t.toList.head? = some '/'
  segments := ((RecordSort.segments '/' t.toList).filter (· ≠ [])).map
    fun piece => .ofText (String.ofList piece)
  slashed := t.toList.getLast? = some '/'

/-- The way to what the path names: a slash at the end asks for one more look at the last piece. -/
def route (p : Path) : List Segment :=
  if p.slashed then p.segments ++ [.slash] else p.segments

/-- Whether a text holds the character of code 0. -/
def holdsNul (t : String) : Bool := t.toList.contains '\x00'

/-- Whether a piece of a text is idle: at the end of a text it may be left out. -/
def isIdle (piece : List Char) : Bool := piece = [] || piece = ['.']

/-- The text of the way to the **directory** in which the entry named by a text lies: the text before the
last piece that is not idle, without the idle pieces at its end. Idle pieces before these are kept, so that
the text may be long although the way is short. -/
def folderText (t : String) : String :=
  match (RecordSort.segments '/' t.toList).reverse.dropWhile isIdle with
  | [] => "."
  | _ :: before =>
    match before.dropWhile isIdle with
    | [] => if (ofText t).absolute then "/" else "."
    | pieces => String.ofList (List.intercalate ['/'] pieces.reverse)

end Path

end RecordSort
