import RecordSort.Files.Path
import RecordSort.Stream.Source

/-! # Trees of files

A **file tree** holds files, directories and symbolic links under one root. An entry has a *location*,
the names on the way from the root to it. A path is followed entry by entry, from the root or from the
*working directory*; symbolic links are followed on the way, and at its end if asked for. Files and
directories have permission bits, of which those of the owner count: whoever works with the tree owns all
of it.

* **`FileTree.lookup`** — the entry at a location: the view through which a tree is seen.
* **`FileTree.admits`** — whether a piece of a path may be taken from a location.
* **`FileTree.walkStraight`**, **`FileTree.walk`** — the location that a path leads to, or why it leads nowhere.
* **`FileTree.mayChange`** — whether entries of a directory may be made, renamed and removed.
* **`FileTree.contentAt`**, **`putFile`**, **`putDirectory`**, **`putLink`**, **`remove`** — what can
  be done with a path.
* **`FileTree.rename`** — puts a file in the place of the entry that a path names. -/

namespace RecordSort

/-- The names on the way from the root to an entry. -/
abbrev Location := List Name

/-- An **entry** of a file tree. -/
inductive Entry
  /-- A file with its permission bits. -/
  | file (mode : Nat) (data : Bytes)
  /-- A directory with its permission bits. -/
  | directory (mode : Nat)
  /-- A symbolic link and the path it stands for. -/
  | link (target : String)
  deriving DecidableEq, Repr

namespace Entry

/-- The **permission bits** of a mode: its last four octal digits. -/
def permissionBits (mode : Nat) : Nat := mode % 0o10000

/-- The permission bits of a new directory: its owner may change it, and all may read it. -/
def directoryMode : Nat := 0o755

/-- Whether the owner may **read** the entry: the bytes of a file, the names in a directory. -/
def isReadable : Entry → Bool
  | file mode _ | directory mode => mode.testBit 8
  | link _ => true

/-- Whether the owner may **write** to the entry: the bytes of a file, the names in a directory. -/
def isWritable : Entry → Bool
  | file mode _ | directory mode => mode.testBit 7
  | link _ => true

/-- Whether the owner may **search** a directory, that is, take ways through it. -/
def isSearchable : Entry → Bool
  | directory mode => mode.testBit 6
  | file _ _ | link _ => false

/-- Whether the entry is a directory. -/
def isDirectory : Entry → Bool
  | directory _ => true
  | file _ _ | link _ => false

end Entry

/-- A **file tree**: its entries and where they lie. -/
structure FileTree where
  /-- The permission bits of the root. -/
  rootMode : Nat := Entry.directoryMode
  /-- The names on the way from the root to the working directory, at which relative paths start. -/
  home : List String := []
  /-- The entries below the root. -/
  entries : List (Location × Entry) := []

namespace FileTree

/-! ## Entries by location -/

/-- The **entry at a location**; the root is a directory. -/
def lookup (t : FileTree) (loc : Location) : Option Entry :=
  if loc = [] then some (.directory t.rootMode)
  else (t.entries.find? fun e => e.1 = loc).map (·.2)

/-- The tree with an entry put at a location, in place of the one that was there. -/
def insert (t : FileTree) (loc : Location) (e : Entry) : FileTree :=
  { t with entries := (loc, e) :: t.entries.filter fun other => other.1 ≠ loc }

/-- The tree without the entry at a location. -/
def erase (t : FileTree) (loc : Location) : FileTree :=
  { t with entries := t.entries.filter fun other => other.1 ≠ loc }

/-- The root is a directory in every tree. -/
@[simp] theorem lookup_root (t : FileTree) : t.lookup [] = some (.directory t.rootMode) := rfl

/-- An entry is found where it was put. -/
theorem lookup_insert_self (t : FileTree) {loc : Location} (h : loc ≠ []) (e : Entry) :
    (t.insert loc e).lookup loc = some e := by
  simp [lookup, insert, h]

/-- Nothing is found where an entry was removed. -/
theorem lookup_erase_self (t : FileTree) {loc : Location} (h : loc ≠ []) :
    (t.erase loc).lookup loc = none := by
  simp [lookup, erase, h]

/-- Removing an entry leaves the others. -/
theorem lookup_erase_of_ne (t : FileTree) {loc other : Location} (h : other ≠ loc) :
    (t.erase loc).lookup other = t.lookup other := by
  unfold lookup erase
  split
  · rfl
  · rw [List.find?_filter]
    congr 1
    congr 1
    funext e
    by_cases he : e.1 = other <;> simp [he, h]

/-- Putting an entry somewhere leaves the others. -/
theorem lookup_insert_of_ne (t : FileTree) {loc other : Location} (h : other ≠ loc) (e : Entry) :
    (t.insert loc e).lookup other = t.lookup other := by
  rw [← lookup_erase_of_ne t h]
  unfold lookup insert erase
  split
  · rfl
  · rw [List.find?_cons_of_neg (by simpa using fun heq => h heq.symm)]

/-! ## Following paths -/

/-- How many symbolic links may be followed on one way. -/
def maxLinks : Nat := 40

/-- The location of the **working directory**. -/
def workplace (t : FileTree) : Location := t.home.map .plain

/-- Where a path starts: at the root or at the working directory. -/
def start (t : FileTree) (p : Path) : Location := if p.absolute then [] else t.workplace

/-- Whether a **piece of a path may be taken** from a location: that has to be a directory that may be
searched. A slash at the end of a path takes nothing, so that the directory need not be searched for it. -/
def admits (t : FileTree) (loc : Location) (segment : Segment) : Except SystemError Unit :=
  match t.lookup loc with
  | none => .error .noEntry
  | some e =>
    if !e.isDirectory then .error .notDirectory
    else if segment = .slash ∨ e.isSearchable then .ok ()
    else .error .accessDenied

/-- Follows a way from a location as long as it meets no symbolic link that has to be followed; where it meets
one it is handed over to `jump`, together with the target. -/
def walkStraight (t : FileTree) (follow : Bool) (jump : Location → List Segment → Except SystemError Location)
    (loc : Location) : List Segment → Except SystemError Location
  | [] => .ok loc
  | segment :: rest =>
    match t.admits loc segment with
    | .error e => .error e
    | .ok () =>
      match segment with
      | .here | .slash => t.walkStraight follow jump loc rest
      | .up => t.walkStraight follow jump loc.dropLast rest
      | .entry name =>
        if Name.maxLength < name.length then .error .nameTooLong
        -- the last name is taken as it stands, whether or not it is that of a link
        else if rest = [] ∧ !follow then .ok (loc ++ [name])
        else
          match t.lookup (loc ++ [name]) with
          | none => if rest = [] then .ok (loc ++ [name]) else .error .noEntry
          | some (.file _ _) | some (.directory _) => t.walkStraight follow jump (loc ++ [name]) rest
          | some (.link target) =>
            -- the way goes on along the target, from the directory that holds the link
            let path := Path.ofText target
            jump (if path.absolute then [] else loc) (path.route ++ rest)

/-- **Follows a way** from a location. Every piece starts from a directory; a symbolic link stands for
its target, at the end of the way only if `follow` is set. The last name need not exist. -/
def walk (t : FileTree) (follow : Bool) : Nat → Location → List Segment → Except SystemError Location
  | 0 => t.walkStraight follow fun _ _ => .error .tooManyLinks
  | links + 1 => t.walkStraight follow (t.walk follow links)

/-- The path that a text spells, unless the system takes no such text. -/
def checkPath (path : String) : Except SystemError Path :=
  if Path.holdsNul path then .error .invalidArgument
  else if path = "" then .error .noEntry
  else if Path.maxLength < path.utf8ByteSize then .error .nameTooLong
  else .ok (Path.ofText path)

/-- What follows a request that succeeds goes on with its answer. -/
theorem ok_bind {α β : Type} (a : α) (f : α → Except SystemError β) : (Except.ok a >>= f) = f a := (rfl)

/-- Nothing follows a request that fails. -/
theorem error_bind {α β : Type} (e : SystemError) (f : α → Except SystemError β) :
    (Except.error e >>= f) = .error e := (rfl)

/-- The **location that a path leads to**. -/
def locate (t : FileTree) (follow : Bool) (path : String) : Except SystemError Location := do
  let p ← checkPath path
  t.walk follow maxLinks (t.start p) p.route

/-- The entry that a path leads to, symbolic links followed, and its location. -/
def find (t : FileTree) (path : String) : Except SystemError (Location × Entry) := do
  let loc ← t.locate true path
  match t.lookup loc with
  | none => throw .noEntry
  | some e => return (loc, e)

/-- The directory and the name of the **entry that a path names**, symbolic links followed on the way but
not at the end. A path that ends by staying or going up names no entry. -/
def locateEntry (t : FileTree) (path : String) : Except SystemError (Location × Name) := do
  let p ← checkPath path
  let directory ← t.walk true maxLinks (t.start p) (p.segments.dropLast ++ [.here])
  match p.segments.getLast? with
  | some (.entry name) => return (directory, name)
  | _ => throw .busy

/-! ## Reading by path -/

/-- The entry that a path leads to, if its owner may **read** it. -/
def findReadable (t : FileTree) (path : String) : Except StreamError Entry :=
  if Path.holdsNul path then .error .nulInPath
  else
    match t.find path with
    | .error e => .error (.system e)
    | .ok (_, e) => if e.isReadable then .ok e else .error (.system .accessDenied)

/-- Opens a path for reading. A directory can be opened, and then cannot be read. -/
def openRead (t : FileTree) (path : String) : Except StreamError ByteSource :=
  match t.findReadable path with
  | .error e => .error e
  | .ok (.file _ data) => .ok { data := data }
  | .ok (.directory _) | .ok (.link _) => .ok { data := [], plan := [.fail (.system .isDirectory)] }

/-- The bytes of the file that a path leads to. -/
def contentAt (t : FileTree) (path : String) : Except StreamError Bytes :=
  match t.findReadable path with
  | .error e => .error e
  | .ok (.file _ data) => .ok data
  | .ok (.directory _) | .ok (.link _) => .error (.system .isDirectory)

/-- The permission bits of the file or the directory that a path leads to. -/
def modeOf (t : FileTree) (path : String) : Option Nat :=
  match t.find path with
  | .ok (_, .file mode _) | .ok (_, .directory mode) => some mode
  | _ => none

/-- The number of entries of the directory that a path leads to. -/
def countEntries (t : FileTree) (path : String) : Except SystemError Nat := do
  match ← t.find path with
  | (loc, .directory mode) =>
    if (Entry.directory mode).isReadable then
      return t.entries.countP fun e => e.1 ≠ [] ∧ e.1.dropLast = loc
    else throw .accessDenied
  | _ => throw .notDirectory

/-! ## Changing entries by path -/

/-- Whether the entries of the directory at a location **may be made, renamed and removed**: it can be
written to and searched. -/
def mayChange (t : FileTree) (loc : Location) : Bool :=
  match t.lookup loc with
  | some e => e.isDirectory && e.isWritable && e.isSearchable
  | none => false

/-- Puts a new entry at a location, if its directory allows that. -/
def make (t : FileTree) (loc : Location) (e : Entry) : Except SystemError FileTree :=
  if t.mayChange loc.dropLast then .ok (t.insert loc e) else .error .accessDenied

/-- Gives the file that a path leads to new bytes and permission bits; a missing file is made. -/
def putFile (t : FileTree) (path : String) (mode : Nat) (data : Bytes) :
    Except SystemError FileTree := do
  let loc ← t.locate true path
  let file := Entry.file (Entry.permissionBits mode) data
  match t.lookup loc with
  | some e =>
    if e.isDirectory then throw .isDirectory
    if e.isWritable then return t.insert loc file else throw .accessDenied
  | none => t.make loc file

/-- Makes a symbolic link. -/
def putLink (t : FileTree) (path target : String) : Except SystemError FileTree := do
  let _ ← checkPath target
  let loc ← t.locate false path
  match t.lookup loc with
  | some _ => throw .entryExists
  | none => t.make loc (.link target)

/-- Makes the directories along a way from a location that do not exist. What stands on the way already has
to be a directory or to lead to one. -/
def putAlong (t : FileTree) (origin : Location) (done : List Segment) :
    List Segment → Except SystemError FileTree
  | [] => .ok t
  | segment :: rest => do
    let way := done ++ [segment]
    let loc ← t.walk false maxLinks origin way
    match t.lookup loc with
    | none =>
      let t' ← t.make loc (.directory Entry.directoryMode)
      t'.putAlong origin way rest
    | some _ =>
      -- one more look at the piece tells whether it leads to a directory
      let _ ← t.walk true maxLinks origin (way ++ [.slash])
      t.putAlong origin way rest

/-- Makes a directory, and those on the way to it that are missing. -/
def putDirectory (t : FileTree) (path : String) : Except SystemError FileTree := do
  let p ← checkPath path
  t.putAlong (t.start p) [] p.segments

/-- Removes the file or the symbolic link at a location, if its directory allows that. -/
def unlink (t : FileTree) (loc : Location) : Except SystemError FileTree :=
  match t.lookup loc with
  | none => .error .noEntry
  | some e =>
    if !t.mayChange loc.dropLast then .error .accessDenied
    else if e.isDirectory then .error .isDirectory
    else .ok (t.erase loc)

/-- Removes the file or the symbolic link that a path names. -/
def remove (t : FileTree) (path : String) : Except SystemError FileTree := do
  let loc ← t.locate false path
  t.unlink loc

/-- **Renames** a file, found by a way from the root to its directory and by its name, to the entry that a
path names. -/
def rename (t : FileTree) (way : List Segment) (name : Name) (path : String) :
    Except SystemError FileTree := do
  let p ← checkPath path
  let origin ← t.walk true maxLinks [] (way ++ [.here])
  let (directory, newName) ← t.locateEntry path
  match t.lookup (origin ++ [name]) with
  | none => throw .noEntry
  | some e =>
    -- the checks stand in the order in which they win over one another
    if Name.maxLength < newName.length then throw .nameTooLong
    if p.slashed then throw .notDirectory
    if !(t.mayChange origin && t.mayChange directory) then throw .accessDenied
    if (t.lookup (directory ++ [newName])).any (·.isDirectory) then throw .isDirectory
    return (t.erase (origin ++ [name])).insert (directory ++ [newName]) e

/-! ## Listing -/

/-- The order of locations: the first names that differ decide, and a directory comes before what lies
in it. -/
def locationOrder : Location → Location → Ordering
  | [], [] => .eq
  | [], _ :: _ => .lt
  | _ :: _, [] => .gt
  | a :: as, b :: bs => (compare a.text b.text).then (locationOrder as bs)

/-- All entries of the tree, in the order of their locations. -/
def listing (t : FileTree) : List (Location × Entry) :=
  t.entries.mergeSort fun a b => (locationOrder a.1 b.1).isLE

/-- The path of a location. -/
def pathOf (loc : Location) : String := "/".intercalate (loc.map Name.text)

end FileTree

end RecordSort
