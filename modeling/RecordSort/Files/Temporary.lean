import RecordSort.Files.Tree

/-! # Temporary files

The staging files of replacements are made, put in place and removed by a library for temporary files, which
is not part of this development. Here it is a parameter, together with the troubles of the disk on which its
files lie; what is relied on of it is stated as laws. Its answers may differ from turn to turn: names are
drawn at random, and a disk may fail at any time.

* **`TempFile`** — a file that the library has made, as its handle knows it.
* **`TempFiles`** — such a library: it makes files, puts them in place of others and removes them.
* **`TempFiles.Lawful`** — what holds of every answer: a request that fails changes nothing, and one that
  succeeds does what the system does.
* **`TempFiles.Reliable`** — a lawful library on a disk without troubles, which answers whenever the system
  would.
* **`TempFiles.numbered`** — a library that numbers its files; `reliable_numbered` says that it is reliable. -/

namespace RecordSort

/-- A **temporary file**, as its handle knows it: by the way to it, and as an open file. -/
structure TempFile where
  /-- The way from the root to the directory in which the file was made. -/
  way : List Segment
  /-- The location of this directory. -/
  directory : Location
  /-- The number that was drawn for the name. -/
  number : Nat
  deriving DecidableEq, Repr

namespace TempFile

/-- The name of the file. -/
def name (file : TempFile) : Name := .staging file.number

/-- The location at which the file was made. The handle writes to the file there, wherever the way leads by
then. -/
def place (file : TempFile) : Location := file.directory ++ [file.name]

/-- The permission bits of a new temporary file: its owner reads and writes. -/
def mode : Nat := 0o600

end TempFile

/-- The **troubles of the disk** while one temporary file is written. -/
structure Trouble where
  /-- What the offers of bytes get. -/
  plan : List Transfer := []
  /-- How the flushes end. -/
  flushPlan : List Transfer := []
  /-- Why the bytes that are held back cannot be written when the file is closed. -/
  closing : Option StreamError := none
  /-- Why the permission bits of the file cannot be set. -/
  permissions : Option StreamError := none
  /-- Why the file cannot be brought to the disk. -/
  syncing : Option StreamError := none
  deriving DecidableEq, Repr

/-- A **library for temporary files** and the disk on which they lie. The number is that of the turn, so that
equal requests may be answered differently. -/
structure TempFiles where
  /-- Makes a file in the directory that a text names. -/
  create : Nat → FileTree → String → Except StreamError TempFile × FileTree
  /-- Puts a file in the place of the entry that a path names. -/
  persist : Nat → FileTree → TempFile → String → Except StreamError Unit × FileTree
  /-- Removes a file that was not put in place. -/
  drop : FileTree → TempFile → FileTree
  /-- What befalls the file that is made in a turn. -/
  trouble : Nat → Trouble

namespace FileTree

/-- The way from the root to what a text names: a relative one goes on from the working directory. -/
def fromRoot (t : FileTree) (text : String) : List Segment :=
  (if (Path.ofText text).absolute then [] else t.workplace.map .entry) ++ (Path.ofText text).segments

/-- The location of the **directory that a text names**, taken from the root and to be searched. -/
def locateDirectory (t : FileTree) (text : String) : Except SystemError Location :=
  t.walk true maxLinks [] (t.fromRoot text ++ [.here])

/-- The number of bytes of the path from the root to a temporary file in the directory that a text names. -/
def tempLength (t : FileTree) (text : String) : Nat :=
  (if (Path.ofText text).absolute then 0 else t.home.foldr (fun name n => name.utf8ByteSize + 1 + n) 1) +
    text.utf8ByteSize + (if (Path.ofText text).slashed then 0 else 1) + (Name.staging 0).length

/-- The tree without a temporary file, if the way to it still leads to it and it may be removed. -/
def dropTemp (t : FileTree) (file : TempFile) : FileTree :=
  match t.walk true maxLinks [] (file.way ++ [.here]) with
  | .error _ => t
  | .ok directory =>
    match t.unlink (directory ++ [file.name]) with
    | .error _ => t
    | .ok t' => t'

end FileTree

namespace TempFiles

/-! ## Laws -/

/-- A temporary file **has been made** in the directory that a text names: it is new there, and empty. -/
structure Made (t : FileTree) (text : String) (file : TempFile) (t' : FileTree) : Prop where
  /-- The text names the directory. -/
  located : t.locateDirectory text = .ok file.directory
  /-- The directory may be changed. -/
  allowed : t.mayChange file.directory = true
  /-- The handle knows the way from the root. -/
  way : file.way = t.fromRoot text
  /-- The name was not taken. -/
  free : t.lookup file.place = none
  /-- The file is there now, and nothing else has changed. -/
  tree : t' = t.insert file.place (.file TempFile.mode [])

/-- The **laws of a library** for temporary files. -/
structure Lawful (lib : TempFiles) : Prop where
  /-- A file that cannot be made leaves nothing behind. -/
  create_error {turn : Nat} {t t' : FileTree} {text : String} {e : StreamError}
    (h : lib.create turn t text = (.error e, t')) : t' = t
  /-- A file that is made is new and empty. -/
  create_ok {turn : Nat} {t t' : FileTree} {text : String} {file : TempFile}
    (h : lib.create turn t text = (.ok file, t')) : Made t text file t'
  /-- A file that cannot be put in place stays as it is. -/
  persist_error {turn : Nat} {t t' : FileTree} {file : TempFile} {path : String} {e : StreamError}
    (h : lib.persist turn t file path = (.error e, t')) : t' = t
  /-- A file is put in place by renaming it. -/
  persist_ok {turn : Nat} {t t' : FileTree} {file : TempFile} {path : String}
    (h : lib.persist turn t file path = (.ok (), t')) : t.rename file.way file.name path = .ok t'
  /-- A file is removed by the way to it; whether that succeeds is not told. -/
  drop_eq (t : FileTree) (file : TempFile) : lib.drop t file = t.dropTemp file

/-- A **reliable library**: files are made wherever the owner may make them and the system takes the path, they
are put in place whenever the system renames them, and the disk has no troubles. -/
structure Reliable (lib : TempFiles) : Prop extends lib.Lawful where
  /-- A file is made where that is allowed. -/
  create (turn : Nat) {t : FileTree} {text : String} {directory : Location}
    (htext : Path.holdsNul text = false) (hlength : t.tempLength text ≤ Path.maxLength)
    (hdirectory : t.locateDirectory text = .ok directory) (hallowed : t.mayChange directory = true) :
    ∃ file, (lib.create turn t text).1 = .ok file
  /-- A file is put in place unless the system refuses to rename it. -/
  persist (turn : Nat) (t : FileTree) (file : TempFile) (path : String) :
    (lib.persist turn t file path).1 =
      match t.rename file.way file.name path with
      | .error e => .error (.system e)
      | .ok _ => .ok ()
  /-- The disk has no troubles. -/
  calm (turn : Nat) : lib.trouble turn = {}

end TempFiles

/-! ## A library that numbers its files -/

namespace FileTree

/-- Above the numbers of all temporary files on the way to a location. -/
def numberBound (loc : Location) : Nat :=
  (loc.map fun | .plain _ => 0 | .staging n => n + 1).foldr max 0

/-- A number that no temporary file of the tree has. -/
def freshNumber (t : FileTree) : Nat := (t.entries.map fun e => numberBound e.1).foldr max 0

/-- Makes a temporary file with a fresh number. -/
def createTemp (t : FileTree) (text : String) : Except SystemError (TempFile × FileTree) :=
  if Path.holdsNul text then .error .invalidArgument
  else if Path.maxLength < t.tempLength text then .error .nameTooLong
  else
    match t.locateDirectory text with
    | .error e => .error e
    | .ok directory =>
      let file : TempFile := ⟨t.fromRoot text, directory, t.freshNumber⟩
      match t.make file.place (.file TempFile.mode []) with
      | .error e => .error e
      | .ok t' => .ok (file, t')

end FileTree

namespace TempFiles

/-- A **library that numbers its files**, on a disk with the given troubles. -/
def numbered (trouble : Nat → Trouble) : TempFiles where
  create _ t text :=
    match t.createTemp text with
    | .ok (file, t') => (.ok file, t')
    | .error e => (.error (.system e), t)
  persist _ t file path :=
    match t.rename file.way file.name path with
    | .ok t' => (.ok (), t')
    | .error e => (.error (.system e), t)
  drop t file := t.dropTemp file
  trouble := trouble

end TempFiles

end RecordSort
