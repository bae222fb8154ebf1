import RecordSort.Files.Chunk
import RecordSort.Chunk.Completed

/-! # Replacements in one step

A replacement of a file takes its way over a staging file, and the library that keeps it or the disk may fail.
This file tells what the replacement comes to if one looks at the paths only: a program fills it by steps of its
own, and then it has failed, or the entry that the path names is replaced **in one step**. There are no staging
files here.

* **`FileTree.Same`** — trees with the same entries.
* **`FileTree.locateFolder`**, **`FileTree.MayStage`** — where the staging file of a path lies, and whether it may
  be made.
* **`FileTree.supersede`** — replaces the entry that a path names.
* **`Fill.Enacts`** — what the steps of a program come to, each replacement in one step.
* **`Fill.Steady`** — runs on which the directories of the files that are replaced
  stay where they are.
* **`Sight.blur`**, **`Report.map`** — what is seen, the numbers of entries of directories apart. -/

namespace RecordSort

namespace FileTree

/-- Two trees **agree** on the entries at some locations. -/
structure AgreeOn (P : Location → Prop) (t u : FileTree) : Prop where
  /-- The working directory is the same. -/
  home : t.home = u.home
  /-- The entries are the same. -/
  lookup : ∀ loc, P loc → t.lookup loc = u.lookup loc

/-- Two trees **are the same**: they have the same entries, no matter in which order these are kept. -/
abbrev Same (t u : FileTree) : Prop := AgreeOn (fun _ => True) t u

/-- The location of the **directory** in which the entry that a path names lies: what the parent part of the
path resolves to. -/
def locateFolder (t : FileTree) (path : String) : Except SystemError Location :=
  t.locateDirectory (Path.folderText path)

/-- Whether a **staging file may be made** for a path: its directory is found and may be changed, and the system
takes the path of the staging file. -/
def MayStage (t : FileTree) (path : String) : Prop :=
  Path.holdsNul (Path.folderText path) = false ∧
    t.tempLength (Path.folderText path) ≤ Path.maxLength ∧
    ∃ directory, t.locateFolder path = .ok directory ∧ t.mayChange directory = true

/-- **Replaces the entry** that a path names by a file. A symbolic link is replaced itself; the file has the
permission bits of what the path leads to, or those of a new temporary file. -/
def supersede (t : FileTree) (path : String) (data : Bytes) : Except SystemError FileTree := do
  let p ← checkPath path
  let (directory, name) ← t.locateEntry path
  if Name.maxLength < name.length then throw .nameTooLong
  if p.slashed then throw .notDirectory
  if !t.mayChange directory then throw .accessDenied
  if (t.lookup (directory ++ [name])).any (·.isDirectory) then throw .isDirectory
  return t.insert (directory ++ [name]) (.file ((t.modeOf path).getD TempFile.mode) data)

/-- What is seen, where the numbers of entries do not count. -/
def Sight.blur : Sight → Sight
  | .count number => .count (number.map fun _ => 0)
  | .bytes data => .bytes data
  | .refused cause => .refused cause

end FileTree

/-- The report with every sight looked at through `f`. -/
def Report.map {Sight : Type} (f : Sight → Sight) : Report Sight → Report Sight
  | .nil => .nil
  | .sight what rest => .sight (f what) (rest.map f)
  | .nested outcome inner rest => .nested outcome (inner.map f) (rest.map f)

namespace Fill

open FileTree

/-- The report with a sight before it, if there was anything to see. -/
def noted {Sight : Type} (sight : Option Sight) (report : Report Sight) : Report Sight :=
  match sight with
  | none => report
  | some s => .sight s report

/-- **What the steps of a program come to** in a tree, every replacement in one step: how the program ends, what
it sees, and the tree that it leaves. The program writes to a sink, which may fail it. A nested replacement has a
new sink; it may fail, and it is told by its outcome that it has. If all is `calm`, the new sinks never fail, and a
replacement fails only if it must. -/
inductive Enacts (calm : Prop) : Fill String Act → ByteSink → FileTree →
    Except StreamError Unit → Report Sight → FileTree → Prop
  /-- The program is done. -/
  | done (sink : ByteSink) (t : FileTree) : Enacts calm .done sink t (.ok ()) .nil t
  /-- The program fails by itself. -/
  | fail (e : StreamError) (sink : ByteSink) (t : FileTree) :
      Enacts calm (.fail e) sink t (.error e) .nil t
  /-- Bytes are written. -/
  | write {bytes : Bytes} {rest : Fill String Act} {sink sink' : ByteSink} {t t' : FileTree}
      {ending : Except StreamError Unit} {report : Report Sight}
      (hwrite : sink.writeAll bytes = (.ok (), sink')) (h : Enacts calm rest sink' t ending report t') :
      Enacts calm (.write bytes rest) sink t ending report t'
  /-- Bytes cannot be written. -/
  | writeFails {bytes : Bytes} {rest : Fill String Act} {sink sink' : ByteSink} {e : StreamError}
      (hwrite : sink.writeAll bytes = (.error e, sink')) (t : FileTree) :
      Enacts calm (.write bytes rest) sink t (.error e) .nil t
  /-- The bytes are passed on. -/
  | flush {rest : Fill String Act} {sink sink' : ByteSink} {t t' : FileTree}
      {ending : Except StreamError Unit} {report : Report Sight}
      (hflush : sink.flush = (.ok (), sink')) (h : Enacts calm rest sink' t ending report t') :
      Enacts calm (.flush rest) sink t ending report t'
  /-- The bytes cannot be passed on. -/
  | flushFails {rest : Fill String Act} {sink sink' : ByteSink} {e : StreamError}
      (hflush : sink.flush = (.error e, sink')) (t : FileTree) :
      Enacts calm (.flush rest) sink t (.error e) .nil t
  /-- An act, and what it shows. -/
  | act {what : Act} {rest : Fill String Act} {sink : ByteSink} {t t' : FileTree}
      {ending : Except StreamError Unit} {report : Report Sight}
      (h : Enacts calm rest sink (perform what t).2 ending report t') :
      Enacts calm (.act what rest) sink t ending (noted (perform what t).1 report) t'
  /-- A replacement that is not begun. -/
  | refused {path : String} {inner rest : Fill String Act} {sink : ByteSink} {t t' : FileTree}
      {e : StreamError} {ending : Except StreamError Unit} {report : Report Sight}
      (hcause : calm → ¬ t.MayStage path) (h : Enacts calm rest sink t ending report t') :
      Enacts calm (.replace path inner rest) sink t ending (.nested (.error e) .nil report) t'
  /-- A replacement that fails while it is filled, or once it is. -/
  | failed {path : String} {inner rest : Fill String Act} {sink : ByteSink} {plan flushPlan : List Transfer}
      {t left t' : FileTree} {e : StreamError} {filled ending : Except StreamError Unit}
      {seen report : Report Sight} (hplans : calm → plan = [] ∧ flushPlan = [])
      (hinner : Enacts calm inner { plan, flushPlan } t filled seen left)
      (hcause : filled = .error e ∨ filled = .ok () ∧
        (calm → ∃ cause, e = .system cause ∧ left.supersede path inner.written = .error cause))
      (h : Enacts calm rest sink left ending report t') :
      Enacts calm (.replace path inner rest) sink t ending (.nested (.error e) seen report) t'
  /-- A replacement that is filled and takes the place of the entry. -/
  | replaced {path : String} {inner rest : Fill String Act} {sink : ByteSink}
      {plan flushPlan : List Transfer} {t left changed t' : FileTree} {ending : Except StreamError Unit}
      {seen report : Report Sight} (hplans : calm → plan = [] ∧ flushPlan = [])
      (hinner : Enacts calm inner { plan, flushPlan } t (.ok ()) seen left)
      (hplace : left.supersede path inner.written = .ok changed)
      (h : Enacts calm rest sink changed ending report t') :
      Enacts calm (.replace path inner rest) sink t ending (.nested (.ok ()) seen report) t'

/-- **Steady runs**: whenever a file is replaced, what the parent part of its path resolves to is the same once
the replacement is filled as it was when the replacement was begun. -/
def Steady {lib : TempFiles} : Fill String Act → ByteSink → FileStore lib → Prop
  | .done, _, _ | .fail _, _, _ => True
  | .write bytes rest, sink, s =>
    match sink.writeAll bytes with
    | (.error _, _) => True
    | (.ok (), sink') => rest.Steady sink' s
  | .flush rest, sink, s =>
    match sink.flush with
    | (.error _, _) => True
    | (.ok (), sink') => rest.Steady sink' s
  | .act what rest, sink, s => rest.Steady sink (FileStore.perform what s).2
  | .replace path inner rest, sink, s =>
    match s.stage path with
    | (.error _, s') => rest.Steady sink s'
    | (.ok (staging, sink'), s') =>
      let filled := inner.run FileStore.perform sink' s'
      inner.Steady sink' s' ∧ filled.store.tree.locateFolder path = s.tree.locateFolder path ∧
        rest.Steady sink (ChunkStore.conclude path staging (filled.outcome, filled.sink, filled.store)).2

/-- Whether a run is steady **can be found out** by taking its steps. -/
instance decidableSteady {lib : TempFiles} (fill : Fill String Act) (sink : ByteSink) (s : FileStore lib) :
    Decidable (fill.Steady sink s) :=
  match fill with
  | .done | .fail _ => .isTrue trivial
  | .write bytes rest =>
    match h : sink.writeAll bytes with
    | (.error _, _) => .isTrue (by rw [Steady, h]; trivial)
    | (.ok (), sink') =>
      have := decidableSteady rest sink' s
      decidable_of_iff (rest.Steady sink' s) (by rw [Steady, h])
  | .flush rest =>
    match h : sink.flush with
    | (.error _, _) => .isTrue (by rw [Steady, h]; trivial)
    | (.ok (), sink') =>
      have := decidableSteady rest sink' s
      decidable_of_iff (rest.Steady sink' s) (by rw [Steady, h])
  | .act what rest => decidableSteady rest sink (FileStore.perform what s).2
  | .replace path inner rest =>
    match h : s.stage path with
    | (.error _, s') =>
      have := decidableSteady rest sink s'
      decidable_of_iff (rest.Steady sink s') (by rw [Steady, h])
    | (.ok (staging, sink'), s') =>
      let filled := inner.run FileStore.perform sink' s'
      let after := (ChunkStore.conclude path staging (filled.outcome, filled.sink, filled.store)).2
      have := decidableSteady inner sink' s'
      have := decidableSteady rest sink after
      decidable_of_iff (inner.Steady sink' s' ∧
        filled.store.tree.locateFolder path = s.tree.locateFolder path ∧ rest.Steady sink after)
        (by rw [Steady, h])

section Enacts

variable {calm : Prop} {fill : Fill String Act} {sink : ByteSink} {t t' : FileTree}
  {ending : Except StreamError Unit} {report : Report Sight}

end Enacts

end Fill

end RecordSort
