import RecordSort.Files.Temporary
import RecordSort.Chunk.Fill

/-! # Files as chunks

A path names a chunk: the file that it leads to. A replacement is written to a *staging file*, a temporary
file in the directory in which the path's entry lies. It is committed when the staging file has its bytes and
the permission bits of what the path leads to and is put in the place of the entry that the path names, a
symbolic link itself rather than its target. Whatever fails on the way, the staging file is removed.

* **`FileStore`** — a file tree on which replacements are staged by a library for temporary files.
* **`FileStore.stage`** — makes a staging file.
* **`FileTree.finish`** — gives a staging file its bytes and its permission bits.
* **`FileStore.commit`** — finishes a staging file and puts it in place.
* **`FileStore.discard`** — removes a staging file.
* **`FileTree.Act`**, **`FileTree.perform`** — what a program that fills a replacement can do besides. -/

namespace RecordSort

/-- A **file tree on which replacements are staged** by a library for temporary files. -/
structure FileStore (lib : TempFiles) where
  /-- The files. -/
  tree : FileTree
  /-- The number of replacements that were begun so far. -/
  turn : Nat := 0

/-- A **staging file** and the turn in which it was made. -/
structure Staging where
  /-- The turn. -/
  turn : Nat
  /-- The file. -/
  file : TempFile
  deriving DecidableEq, Repr

namespace FileTree

/-! ## Finishing a staging file -/

/-- The tree in which the file at a location has other bytes. -/
def setData (t : FileTree) (loc : Location) (data : Bytes) : FileTree :=
  match t.lookup loc with
  | some (.file mode _) => t.insert loc (.file mode data)
  | _ => t

/-- The tree in which the file at a location has other permission bits. -/
def setMode (t : FileTree) (loc : Location) (mode : Nat) : FileTree :=
  match t.lookup loc with
  | some (.file _ data) => t.insert loc (.file mode data)
  | _ => t

/-- Gives the file at a location the permission bits of what a path leads to, if it leads to anything. -/
def adoptMode (t : FileTree) (loc : Location) (path : String) (trouble : Option StreamError) :
    Except StreamError Unit × FileTree :=
  match t.modeOf path, trouble with
  | none, _ => (.ok (), t)
  | some _, some e => (.error e, t)
  | some mode, none => (.ok (), t.setMode loc mode)

/-- **Finishes the staging file** at a location: it is closed with its bytes, it is given the permission bits
of what the path leads to, and it is brought to the disk. -/
def finish (t : FileTree) (loc : Location) (path : String) (trouble : Trouble) (data : Bytes) :
    Except StreamError Unit × FileTree :=
  match trouble.closing with
  | some e => (.error e, t)
  | none =>
    match (t.setData loc data).adoptMode loc path trouble.permissions with
    | (.error e, t') => (.error e, t')
    | (.ok (), t') =>
      match trouble.syncing with
      | some e => (.error e, t')
      | none => (.ok (), t')

end FileTree

namespace FileStore

/-! ## Staging and committing -/

variable {lib : TempFiles}

/-- **Makes a staging file** in the directory of the entry that a path names. What is written to it goes
through a sink that has the troubles of its turn. -/
def stage (s : FileStore lib) (path : String) : Except StreamError (Staging × ByteSink) × FileStore lib :=
  match lib.create s.turn s.tree (Path.folderText path) with
  | (.error e, t) => (.error e, ⟨t, s.turn + 1⟩)
  | (.ok file, t) =>
    let trouble := lib.trouble s.turn
    (.ok (⟨s.turn, file⟩, { plan := trouble.plan, flushPlan := trouble.flushPlan }), ⟨t, s.turn + 1⟩)

/-- **Removes a staging file**. -/
def discard (s : FileStore lib) (staging : Staging) : FileStore lib :=
  { s with tree := lib.drop s.tree staging.file }

/-- **Commits a replacement**: the staging file is finished and put in the place of the entry that the path
names. If either fails, it is removed. -/
def commit (s : FileStore lib) (path : String) (staging : Staging) (sink : ByteSink) :
    Except StreamError Unit × FileStore lib :=
  match s.tree.finish staging.file.place path (lib.trouble staging.turn) sink.contents with
  | (.error e, t) => (.error e, { s with tree := t }.discard staging)
  | (.ok (), t) =>
    match lib.persist staging.turn t staging.file path with
    | (.ok (), t') => (.ok (), { s with tree := t' })
    | (.error e, t') => (.error e, { s with tree := t' }.discard staging)

/-- A path names the chunk that is the file it leads to. -/
instance : ChunkStore (FileStore lib) String Staging where
  openRead s path := (s.tree.openRead path, s)
  stage := stage
  commit := commit
  discard s _ staging _ := s.discard staging

end FileStore

namespace FileTree

/-! ## Filling replacements -/

/-- What a program that fills a replacement can do to a file tree besides replacing files. -/
inductive Act
  /-- Reads a file. -/
  | peek (path : String)
  /-- Counts the entries of a directory. -/
  | count (path : String)
  /-- Writes a file, or makes one. -/
  | putFile (path : String) (mode : Nat) (data : Bytes)
  /-- Makes a directory. -/
  | putDirectory (path : String)
  /-- Makes a symbolic link. -/
  | putLink (path target : String)
  /-- Removes a file or a symbolic link. -/
  | remove (path : String)
  deriving DecidableEq, Repr

/-- What such a program can see, or why the tree has not been changed. -/
inductive Sight
  /-- The bytes of a file, if it can be read. -/
  | bytes (data : Option Bytes)
  /-- The number of entries of a directory, if it can be read. -/
  | count (number : Option Nat)
  /-- A change of the tree that failed. -/
  | refused (cause : SystemError)
  deriving DecidableEq, Repr

/-- The changed tree, or the tree as it was and the cause if the change failed. -/
def orRefused (t : FileTree) : Except SystemError FileTree → Option Sight × FileTree
  | .ok t' => (none, t')
  | .error cause => (some (.refused cause), t)

/-- **What an act shows and does**; a change that fails changes nothing. -/
def perform : Act → FileTree → Option Sight × FileTree
  | .peek path, t => (some (.bytes (t.contentAt path).toOption), t)
  | .count path, t => (some (.count (t.countEntries path).toOption), t)
  | .putFile path mode data, t => t.orRefused (t.putFile path mode data)
  | .putDirectory path, t => t.orRefused (t.putDirectory path)
  | .putLink path target, t => t.orRefused (t.putLink path target)
  | .remove path, t => t.orRefused (t.remove path)

end FileTree

/-- An act on the files of a store. -/
def FileStore.perform {lib : TempFiles} (what : FileTree.Act) (s : FileStore lib) :
    Option FileTree.Sight × FileStore lib :=
  let after := FileTree.perform what s.tree
  (after.1, { s with tree := after.2 })

end RecordSort
