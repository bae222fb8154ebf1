import RecordSort.Proofs.Files.Staging
import RecordSort.Proofs.Files.Texts

/-! # Files that a path names

A path may name a file without a symbolic link on the way. Then the file is the entry that the path names, and it
lies in the directory that the parent part of the path resolves to. With a reliable library a replacement of it
succeeds wherever a staging file may be made.

* **`Straight`** — ways on which no symbolic link is followed.
* **`HomeReachable`** — the working directory is reached from the root.
* **`NamesFile`** — a path names a readable file.
* **`NamesFile.openRead`**, **`NamesFile.exists_entry`** — the file is opened, and where it lies.
* **`NamesFile.mayStage`**, **`NamesFile.supersede`** — its staging file may be made, and the file is replaced.
* **`FileStore.stage_of_reliable`**, **`FileStore.conclude_of_namesFile`** — how its replacement begins, and how
  it is concluded. -/

namespace RecordSort

namespace FileTree

variable {t u : FileTree} {loc mid goal directory : Location} {segment : Segment}
  {segments rest : List Segment} {path : String} {mode : Nat} {data : Bytes}

/-! ## Pieces that are admitted -/

/-- A directory admits every piece if it admits one that is not a slash at the end. -/
theorem admits_of_admits (h : t.admits loc segment = .ok ()) (hsegment : segment ≠ .slash)
    (other : Segment) : t.admits loc other = .ok () := by
  unfold admits at h ⊢
  rcases hentry : t.lookup loc with _ | e <;> rw [hentry] at h
  · cases h
  dsimp only at h ⊢
  split at h
  · cases h
  next hdirectory =>
    split at h
    next hsearch => rw [if_neg hdirectory, if_pos (.inr (hsearch.resolve_left hsegment))]
    next => cases h

/-- Pieces are admitted in directories only. -/
theorem exists_directory_of_admits (h : t.admits loc segment = .ok ()) :
    ∃ mode, t.lookup loc = some (.directory mode) := by
  unfold admits at h
  rcases hentry : t.lookup loc with _ | ⟨_ | mode | _⟩ <;> rw [hentry] at h
  · cases h
  · cases h
  · exact ⟨mode, rfl⟩
  · cases h

/-! ## Straight ways -/

/-- A way that **leads to an entry without following a symbolic link**. -/
inductive Straight (t : FileTree) : Location → List Segment → Location → Prop
  /-- There are no more pieces. -/
  | nil (loc : Location) : Straight t loc [] loc
  /-- The piece stays. -/
  | stay {loc goal : Location} {segment : Segment} {rest : List Segment}
      (hsegment : segment = .here ∨ segment = .slash) (hadmits : t.admits loc segment = .ok ())
      (h : Straight t loc rest goal) : Straight t loc (segment :: rest) goal
  /-- The piece goes up. -/
  | up {loc goal : Location} {rest : List Segment} (hadmits : t.admits loc .up = .ok ())
      (h : Straight t loc.dropLast rest goal) : Straight t loc (.up :: rest) goal
  /-- The piece goes to a file or to a directory. -/
  | entry {loc goal : Location} {rest : List Segment} {name : Name} {e : Entry}
      (hadmits : t.admits loc (.entry name) = .ok ()) (hshort : name.length ≤ Name.maxLength)
      (hentry : t.lookup (loc ++ [name]) = some e) (hlink : ∀ target, e ≠ .link target)
      (h : Straight t (loc ++ [name]) rest goal) : Straight t loc (.entry name :: rest) goal

/-- A way that may follow no link and leads to an entry **is straight**. -/
theorem straight_of_walk (h : t.walk true 0 loc segments = .ok goal) (hgoal : t.lookup goal ≠ none) :
    t.Straight loc segments goal := by
  induction segments generalizing loc with
  | nil =>
    rw [walk_nil] at h
    cases h
    exact .nil goal
  | cons segment rest ih =>
    rw [walk_cons] at h
    rcases hstride : t.stride true 0 loc segment rest with answer | ⟨links, loc', segments⟩ <;>
      rw [hstride] at h
    -- the last name need not exist, but here it does
    · rw [show answer = .ok goal from h] at hstride
      obtain ⟨-, name, -, -, -, -, hnone⟩ := exists_of_stride_stop hstride
      exact absurd (hnone rfl) hgoal
    · obtain ⟨hadmits, hon⟩ := onward_of_stride hstride
      cases hon with
      | stay _ hsegment => exact .stay hsegment hadmits (ih h)
      | up => exact .up hadmits (ih h)
      | into name e hshort hentry hlink => exact .entry hadmits hshort hentry hlink (ih h)
      | along _ _ _ hleft => cases hleft

/-- **A straight way** leads to its goal, whether links may be followed or not. -/
theorem Straight.walk (h : t.Straight loc segments goal) (follow : Bool) (links : Nat) :
    t.walk follow links loc segments = .ok goal := by
  induction h with
  | nil loc => exact walk_nil t follow links loc
  | stay hsegment hadmits _ ih =>
    rw [walk_cons]
    unfold stride
    rw [hadmits]
    rcases hsegment with rfl | rfl
    · exact ih
    · exact ih
  | up hadmits _ ih =>
    rw [walk_cons]
    unfold stride
    rw [hadmits]
    exact ih
  | @entry loc goal rest name e hadmits hshort hentry hlink h ih =>
    rw [walk_cons]
    unfold stride
    rw [hadmits]
    dsimp only
    rw [if_neg (Nat.not_lt.2 hshort)]
    by_cases hlast : rest = [] ∧ (!follow) = true
    · rw [if_pos hlast]
      obtain rfl := hlast.1
      cases h
      rfl
    · rw [if_neg hlast, hentry]
      rcases e with _ | _ | target
      · exact ih
      · exact ih
      · exact absurd rfl (hlink target)

/-- A straight way is straight in parts. -/
theorem straight_append {front : List Segment} (h : t.Straight loc (front ++ rest) goal) :
    ∃ mid, t.Straight loc front mid ∧ t.Straight mid rest goal := by
  induction front generalizing loc with
  | nil => exact ⟨loc, .nil loc, h⟩
  | cons segment front ih =>
    cases h with
    | stay hsegment hadmits h =>
      obtain ⟨mid, hfront, hrest⟩ := ih h
      exact ⟨mid, .stay hsegment hadmits hfront, hrest⟩
    | up hadmits h =>
      obtain ⟨mid, hfront, hrest⟩ := ih h
      exact ⟨mid, .up hadmits hfront, hrest⟩
    | entry hadmits hshort hentry hlink h =>
      obtain ⟨mid, hfront, hrest⟩ := ih h
      exact ⟨mid, .entry hadmits hshort hentry hlink hfront, hrest⟩

/-- Two straight ways, the one behind the other. -/
theorem Straight.append (h : t.Straight loc segments mid) (h' : t.Straight mid rest goal) :
    t.Straight loc (segments ++ rest) goal := by
  induction h with
  | nil => exact h'
  | stay hsegment hadmits _ ih => exact .stay hsegment hadmits (ih h')
  | up hadmits _ ih => exact .up hadmits (ih h')
  | entry hadmits hshort hentry hlink _ ih => exact .entry hadmits hshort hentry hlink (ih h')

/-- Pieces that stay may be left out. -/
theorem Straight.filter (h : t.Straight loc segments goal) :
    t.Straight loc (segments.filter (· ≠ .here)) goal := by
  induction h with
  | nil loc => exact .nil loc
  | @stay loc goal segment rest hsegment hadmits _ ih =>
    rcases hsegment with rfl | rfl
    · exact ih
    · exact .stay (.inr rfl) hadmits ih
  | up hadmits _ ih => exact .up hadmits ih
  | entry hadmits hshort hentry hlink _ ih => exact .entry hadmits hshort hentry hlink ih

/-- Every location on a straight way admits pieces that stay, if its goal does. -/
theorem Straight.admits_here (h : t.Straight loc segments goal) (hslash : .slash ∉ segments)
    (hgoal : t.admits goal .here = .ok ()) : t.admits loc .here = .ok () := by
  cases h with
  | nil => exact hgoal
  | @stay _ _ segment _ _ hadmits _ =>
    exact admits_of_admits hadmits (fun h => hslash (h ▸ List.mem_cons_self)) _
  | up hadmits _ => exact admits_of_admits hadmits nofun _
  | entry hadmits _ _ _ _ => exact admits_of_admits hadmits nofun _

/-- **Pieces that stay may be put in**, if the goal admits them. -/
theorem straight_of_filter (h : t.Straight loc (segments.filter (· ≠ .here)) goal)
    (hslash : .slash ∉ segments) (hgoal : t.admits goal .here = .ok ()) :
    t.Straight loc segments goal := by
  induction segments generalizing loc with
  | nil => exact h
  | cons segment rest ih =>
    rw [List.mem_cons, not_or] at hslash
    by_cases hhere : segment = .here
    · subst hhere
      have hfilter : .slash ∉ rest.filter (· ≠ .here) := fun hmem => hslash.2 (List.mem_filter.1 hmem).1
      exact .stay (.inl rfl) (Straight.admits_here h hfilter hgoal) (ih h hslash.2)
    · rw [List.filter_cons_of_pos (by simpa using hhere)] at h
      cases h with
      | stay hsegment hadmits h => exact .stay hsegment hadmits (ih h hslash.2)
      | up hadmits h => exact .up hadmits (ih h hslash.2)
      | entry hadmits hshort hentry hlink h => exact .entry hadmits hshort hentry hlink (ih h hslash.2)

/-! ## Ways from the root -/

/-- All that lies **on the way from the root** to a location is a directory. -/
def Rooted (t : FileTree) (loc : Location) : Prop :=
  ∀ front back, loc = front ++ back → back ≠ [] → ∃ mode, t.lookup front = some (.directory mode)

/-- Nothing lies on the way to the root. -/
theorem rooted_nil (t : FileTree) : t.Rooted [] := by
  intro front back h hback
  exact absurd (List.append_eq_nil_iff.1 h.symm).2 hback

/-- Less lies on the way to the location above. -/
theorem Rooted.dropLast (h : t.Rooted loc) : t.Rooted loc.dropLast := by
  intro front back heq hback
  rcases List.eq_nil_or_concat loc with rfl | ⟨init, name, rfl⟩
  · exact h front back heq hback
  · rw [List.concat_eq_append, List.dropLast_concat] at heq
    refine h front (back ++ [name]) ?_ (by simp)
    rw [List.concat_eq_append, heq, List.append_assoc]

/-- A directory lies on the way to its entries. -/
theorem Rooted.concat (h : t.Rooted loc) (hloc : ∃ mode, t.lookup loc = some (.directory mode))
    (name : Name) : t.Rooted (loc ++ [name]) := by
  intro front back heq hback
  rcases List.eq_nil_or_concat back with rfl | ⟨init, last, rfl⟩
  · exact absurd rfl hback
  rw [List.concat_eq_append, ← List.append_assoc] at heq
  have hfront : loc = front ++ init := List.append_inj_left' heq rfl
  by_cases hinit : init = []
  · rw [hinit, List.append_nil] at hfront
    rw [← hfront]
    exact hloc
  · exact h front init hfront hinit

/-- The location above one on a way from the root is a directory. -/
theorem Rooted.lookup_dropLast (h : t.Rooted loc) :
    ∃ mode, t.lookup loc.dropLast = some (.directory mode) := by
  rcases List.eq_nil_or_concat loc with rfl | ⟨front, name, rfl⟩
  · exact ⟨_, lookup_root t⟩
  · rw [List.concat_eq_append, List.dropLast_concat]
    exact h front [name] (List.concat_eq_append ..) (by simp)

/-- Straight ways from the root go on from it. -/
theorem Straight.rooted (h : t.Straight loc segments goal) (hloc : t.Rooted loc) : t.Rooted goal := by
  induction h with
  | nil => exact hloc
  | stay _ _ _ ih => exact ih hloc
  | up _ _ ih => exact ih hloc.dropLast
  | entry hadmits _ _ _ _ ih => exact ih (hloc.concat (exists_directory_of_admits hadmits) _)

/-- **A straight way to a file ends with the name of the file.** -/
theorem Straight.exists_entry (h : t.Straight loc segments goal) (hloc : t.Rooted loc)
    (hgoal : t.lookup goal = some (.file mode data)) (hsegments : segments ≠ []) :
    ∃ front directory name, segments = front ++ [.entry name] ∧ t.Straight loc front directory ∧
      t.admits directory .here = .ok () ∧ name.length ≤ Name.maxLength ∧ goal = directory ++ [name] := by
  rcases List.eq_nil_or_concat segments with rfl | ⟨front, last, rfl⟩
  · exact absurd rfl hsegments
  rw [List.concat_eq_append] at h
  obtain ⟨directory, hfront, hlast⟩ := straight_append h
  cases hlast with
  | stay _ hadmits h =>
    cases h
    obtain ⟨mode, hmode⟩ := exists_directory_of_admits hadmits
    rw [hmode] at hgoal
    cases hgoal
  | up _ h =>
    cases h
    obtain ⟨mode, hmode⟩ := (hfront.rooted hloc).lookup_dropLast
    rw [hmode] at hgoal
    cases hgoal
  | entry hadmits hshort _ _ h =>
    cases h
    exact ⟨front, directory, _, List.concat_eq_append .., hfront, admits_of_admits hadmits nofun _,
      hshort, rfl⟩

/-- The **working directory is reached** from the root by the names on the way to it, and it may be searched. -/
def HomeReachable (t : FileTree) : Prop :=
  t.walk true 0 [] (t.workplace.map .entry ++ [.here]) = .ok t.workplace

/-- A way that ends by staying ends where one may stay. -/
theorem admits_of_walk_here {follow : Bool} {links : Nat}
    (h : t.walk follow links loc (segments ++ [.here]) = .ok goal) : t.admits goal .here = .ok () := by
  generalize hway : segments ++ [.here] = way at h
  revert segments
  revert h
  refine walk_induction t follow (P := fun links loc way => t.walk follow links loc way = .ok goal →
    ∀ segments, segments ++ [.here] = way → t.admits goal .here = .ok ()) ?_ ?_ ?_ links loc way
  · intro _ _ _ segments hway
    simp at hway
  · intro links loc segment rest answer hstride h segments hway
    rw [walk_cons, hstride] at h
    obtain ⟨-, name, rfl, -, -, rfl, -⟩ := exists_of_stride_stop (hstride.trans (congrArg _ h))
    rcases segments with - | ⟨first, segments⟩ <;> simp at hway
  · intro links loc segment rest links' loc' segments' hstride ih h segments hway
    rw [walk_cons, hstride] at h
    obtain ⟨hadmits, hon⟩ := onward_of_stride hstride
    rcases segments with - | ⟨first, segments⟩
    -- only the piece that stays is left
    · obtain ⟨rfl, rfl⟩ : .here = segment ∧ [] = rest := by simpa using hway
      cases hon
      cases h.symm.trans (walk_nil t follow links loc)
      exact hadmits
    · obtain ⟨rfl, rfl⟩ : first = segment ∧ segments ++ [.here] = rest := by simpa using hway
      cases hon with
      | stay _ _ => exact ih h segments rfl
      | up => exact ih h segments rfl
      | into _ _ _ _ _ => exact ih h segments rfl
      | along _ target _ _ => exact ih h ((Path.ofText target).route ++ segments) (List.append_assoc ..)

/-- The way to a working directory that is reached is straight. -/
theorem HomeReachable.straight (h : t.HomeReachable) :
    t.Straight [] (t.workplace.map .entry) t.workplace ∧ t.admits t.workplace .here = .ok () := by
  have hadmits := admits_of_walk_here h
  obtain ⟨mode, hmode⟩ := exists_directory_of_admits hadmits
  have hway : t.Straight [] (t.workplace.map .entry ++ [.here]) t.workplace :=
    straight_of_walk h (by rw [hmode]; nofun)
  obtain ⟨mid, hfront, hlast⟩ := straight_append hway
  cases hlast with
  | stay _ _ h =>
    cases h
    exact ⟨hfront, hadmits⟩

/-- A working directory that is reached is reached in trees of the same shape. -/
theorem HomeReachable.later (h : t.HomeReachable) (hshape : SameShape u t) : u.HomeReachable := by
  have hhere : Segment.here.IsPlain := trivial
  have hworkplace : u.workplace = t.workplace := by
    unfold workplace
    rw [hshape.home]
  unfold HomeReachable
  rw [hworkplace, ← h]
  refine walk_eq_of_sameShape hshape spellable_nil fun s hs => ?_
  refine Path.isPlain_of_mem_concat (fun s hs => ?_) hhere hs
  obtain ⟨name, hname, rfl⟩ := List.mem_map.1 hs
  obtain ⟨text, -, rfl⟩ := List.mem_map.1 hname
  trivial

/-- What a path starts from **is reached from the root**: a relative one starts from the working directory. -/
def StartReachable (t : FileTree) (path : String) : Prop :=
  (Path.ofText path).absolute = false → t.HomeReachable

/-- The start of a path lies on a straight way from the root. -/
theorem StartReachable.straight (h : t.StartReachable path) :
    t.Straight [] (if (Path.ofText path).absolute then [] else t.workplace.map .entry)
      (t.start (Path.ofText path)) := by
  unfold start
  rcases habsolute : (Path.ofText path).absolute
  · exact (h habsolute).straight.1
  · exact .nil []

/-- A path starts from a directory. -/
theorem StartReachable.exists_directory (h : t.StartReachable path) :
    ∃ mode, t.lookup (t.start (Path.ofText path)) = some (.directory mode) := by
  unfold start
  rcases habsolute : (Path.ofText path).absolute
  · exact exists_directory_of_admits (h habsolute).straight.2
  · exact ⟨_, lookup_root t⟩

/-- What is reached is reached in trees of the same shape. -/
theorem StartReachable.later (h : t.StartReachable path) (hshape : SameShape u t) :
    u.StartReachable path :=
  fun habsolute => (h habsolute).later hshape

/-! ## Named files -/

/-- A path **names a readable file** at a location: no symbolic link is followed on the way to it. -/
structure NamesFile (t : FileTree) (path : String) (loc : Location) (mode : Nat) (data : Bytes) :
    Prop where
  /-- The system takes the path. -/
  checked : checkPath path = .ok (Path.ofText path)
  /-- The path leads to the location. -/
  straight : t.walk true 0 (t.start (Path.ofText path)) (Path.ofText path).route = .ok loc
  /-- The file is there. -/
  file : t.lookup loc = some (.file mode data)
  /-- Its owner may read it. -/
  readable : (Entry.file mode data).isReadable = true

namespace NamesFile

/-- The path of a named file holds no character of code 0. -/
theorem holdsNul (h : t.NamesFile path loc mode data) : Path.holdsNul path = false := by
  have hchecked := h.checked
  unfold checkPath at hchecked
  split at hchecked
  · cases hchecked
  next hnul => exact Bool.eq_false_iff.2 hnul

/-- The way to a named file is straight. -/
theorem way (h : t.NamesFile path loc mode data) :
    t.Straight (t.start (Path.ofText path)) (Path.ofText path).route loc :=
  straight_of_walk h.straight (by rw [h.file]; nofun)

/-- The location of a named file can be spelled. -/
theorem spellable (h : t.NamesFile path loc mode data) : Spellable loc :=
  spellable_of_walk h.straight (spellable_start t _) fun _ => Path.isPlain_of_mem_route

/-- A named file is not the root. -/
theorem ne_nil (h : t.NamesFile path loc mode data) : loc ≠ [] := by
  rintro rfl
  have hfile := h.file
  rw [lookup_root] at hfile
  cases hfile

/-- The path of a named file leads to it. -/
theorem locate (h : t.NamesFile path loc mode data) : t.locate true path = .ok loc := by
  unfold FileTree.locate
  rw [h.checked, ok_bind]
  exact h.way.walk true maxLinks

/-- A named file is found. -/
theorem find (h : t.NamesFile path loc mode data) :
    t.find path = .ok (loc, .file mode data) := by
  unfold FileTree.find
  rw [h.locate, ok_bind]
  rw [h.file]
  rfl

/-- **A named file can be opened.** -/
theorem openRead (h : t.NamesFile path loc mode data) : t.openRead path = .ok { data := data } := by
  unfold FileTree.openRead findReadable
  rw [h.holdsNul, h.find]
  dsimp only
  rw [if_neg (by decide), if_pos h.readable]

/-- The path of a named file leads to its permission bits. -/
theorem modeOf (h : t.NamesFile path loc mode data) : t.modeOf path = some mode := by
  unfold FileTree.modeOf
  rw [h.find]

/-- A path still names a file after changes of bytes. -/
theorem later {data' : Bytes} (h : t.NamesFile path loc mode data) (hshape : SameShape u t)
    (hfile : u.lookup loc = some (.file mode data')) : u.NamesFile path loc mode data' where
  checked := h.checked
  straight := by
    rw [hshape.start, walk_eq_of_sameShape hshape (spellable_start t _)
      fun _ => Path.isPlain_of_mem_route]
    exact h.straight
  file := hfile
  readable := h.readable

/-- **Where a named file lies**: it is the entry that the path names, in the directory that the parent part of the
path resolves to. -/
theorem exists_entry (h : t.NamesFile path loc mode data) (hstart : t.StartReachable path) :
    ∃ directory name, loc = directory ++ [name] ∧ name.length ≤ Name.maxLength ∧
      (Path.ofText path).slashed = false ∧ t.locateFolder path = .ok directory ∧
      t.locateEntry path = .ok (directory, name) := by
  have hmoves : (Path.ofText path).route ≠ [] := by
    intro hnil
    have hway := h.way
    rw [hnil] at hway
    cases hway
    obtain ⟨mode, hmode⟩ := hstart.exists_directory
    cases hmode.symm.trans h.file
  obtain ⟨front, directory, name, hroute, hfront, hadmits, hshort, hloc⟩ :=
    h.way.exists_entry (hstart.straight.rooted (rooted_nil t)) h.file hmoves
  -- a slash at the end would ask for one more look
  have hslashed : (Path.ofText path).slashed = false := by
    rcases hs : (Path.ofText path).slashed
    · rfl
    · unfold Path.route at hroute
      rw [if_pos hs] at hroute
      cases List.cons.inj (List.append_inj' hroute rfl).2 |>.1
  have hsegments : (Path.ofText path).segments = front ++ [.entry name] := by
    unfold Path.route at hroute
    rwa [hslashed] at hroute
  have hhere : t.Straight directory [.here] directory := .stay (.inl rfl) hadmits (.nil directory)
  refine ⟨directory, name, hloc, hshort, hslashed, ?_, ?_⟩
  · have hfolder : t.Straight (t.start (Path.ofText path))
        (Path.ofText (Path.folderText path)).segments directory := by
      refine straight_of_filter ?_ (Path.slash_not_mem_segments _) hadmits
      rw [Path.filter_folderText hsegments nofun]
      exact hfront.filter
    have hway := (hstart.straight.append hfolder).append hhere
    unfold locateFolder locateDirectory fromRoot
    rw [Path.absolute_folderText (Path.solid_ne_nil hsegments nofun)]
    exact hway.walk true maxLinks
  · have hwalk := (hfront.append hhere).walk true maxLinks
    unfold locateEntry
    rw [h.checked, ok_bind, hsegments, List.dropLast_concat, List.getLast?_concat, hwalk, ok_bind]
    rfl

/-- The directory of a named file is the one above it. -/
theorem locateFolder (h : t.NamesFile path loc mode data) (hstart : t.StartReachable path) :
    t.locateFolder path = .ok loc.dropLast := by
  obtain ⟨directory, name, rfl, -, -, hfolder, -⟩ := h.exists_entry hstart
  rw [hfolder, List.dropLast_concat]

/-- **A staging file may be made for a named file** if its directory may be changed and the system takes the path
of the staging file. -/
theorem mayStage (h : t.NamesFile path loc mode data) (hstart : t.StartReachable path)
    (hallowed : t.mayChange loc.dropLast = true)
    (hlength : t.tempLength (Path.folderText path) ≤ Path.maxLength) : t.MayStage path :=
  ⟨Path.holdsNul_folderText h.holdsNul, hlength, loc.dropLast, h.locateFolder hstart, hallowed⟩

/-- **A named file is replaced** in its place, and keeps its permission bits. -/
theorem supersede (h : t.NamesFile path loc mode data) (hstart : t.StartReachable path)
    (hallowed : t.mayChange loc.dropLast = true) (content : Bytes) :
    t.supersede path content = .ok (t.insert loc (.file mode content)) := by
  obtain ⟨directory, name, rfl, hshort, hslashed, -, hentry⟩ := h.exists_entry hstart
  rw [List.dropLast_concat] at hallowed
  unfold FileTree.supersede
  rw [h.checked, ok_bind, hentry, ok_bind]
  dsimp only
  rw [if_neg (Nat.not_lt.2 hshort), hslashed, hallowed, h.file, h.modeOf]
  rfl

/-! ### Files that have been replaced -/

variable {place : Location} {content : Bytes}

/-- A file that has been replaced has its new bytes. -/
theorem lookup_replaced (h : t.NamesFile path loc mode data)
    (hsame : Same u ((t.erase place).insert loc (.file mode content))) :
    u.lookup loc = some (.file mode content) := by
  rw [hsame.lookup _ trivial, lookup_insert_self _ h.ne_nil]

/-- Once a file has been replaced and its staging file is gone, the other entries are as they were. -/
theorem lookup_of_replaced (hsame : Same u ((t.erase place).insert loc (.file mode content)))
    {other : Location} (hne : other ≠ loc) (hplace : other ≠ place) : u.lookup other = t.lookup other := by
  rw [hsame.lookup _ trivial, lookup_insert_of_ne _ hne, lookup_erase_of_ne _ hplace]

/-- Replacing a file **leaves the shape of the tree**. -/
theorem sameShape_of_replaced (h : t.NamesFile path loc mode data)
    (hsame : Same u ((t.erase place).insert loc (.file mode content))) (hplace : ¬ Spellable place) :
    SameShape u t := by
  refine ⟨hsame.home, fun other hspell => ?_⟩
  by_cases hother : other = loc
  · rw [hother, h.lookup_replaced hsame, h.file]
    rfl
  · rw [lookup_of_replaced hsame hother]
    rintro rfl
    exact hplace hspell

end NamesFile

end FileTree

namespace FileStore

open FileTree

variable {lib : TempFiles} {s : FileStore lib} {path : String} {loc : Location} {mode : Nat} {data : Bytes}

/-- **With a reliable library** a replacement begins with an empty sink that does not fail. -/
theorem stage_of_reliable (hlib : lib.Reliable) (h : s.tree.MayStage path) :
    ∃ staging s', s.stage path = (.ok (staging, {}), s') ∧
      TempFiles.Made s.tree (Path.folderText path) staging.file s'.tree := by
  obtain ⟨⟨staging, sink⟩, hstaged⟩ := stage_of_mayStage hlib h
  rcases hstage : s.stage path with ⟨outcome, s'⟩
  obtain rfl : outcome = .ok (staging, sink) := by rw [← hstaged, hstage]
  obtain ⟨hmade, rfl⟩ := stage_ok hlib.toLawful hstage
  rw [hlib.calm]
  exact ⟨staging, s', rfl, hmade⟩

/-- **The replacement of a named file that was filled** succeeds with a reliable library. The staging file is gone
then, the file has its bytes, and nothing else has changed. -/
theorem conclude_of_namesFile (hlib : lib.Reliable) (h : s.tree.NamesFile path loc mode data)
    (hstart : s.tree.StartReachable path) {staging : Staging}
    (hstaged : s.tree.Staged path staging.file TempFile.mode []) (sink : ByteSink) :
    let concluded := ChunkStore.conclude path staging (.ok (), sink, s)
    concluded.1 = .ok () ∧ Same concluded.2.tree
      ((s.tree.erase staging.file.place).insert loc (.file mode sink.contents)) := by
  intro concluded
  have hdirectory : loc.dropLast = staging.file.directory :=
    Except.ok.inj ((h.locateFolder hstart).symm.trans hstaged.located)
  have hsupersede := h.supersede hstart (hdirectory ▸ hstaged.allowed) sink.contents
  have houtcome : concluded.1 = .ok () := by
    have hconclude := conclude_of_reliable hlib hstaged (AgreeOn.refl s.tree) sink
    rw [hsupersede] at hconclude
    exact hconclude
  refine ⟨houtcome, ?_⟩
  rcases conclude_of_staged hlib.toLawful hstaged (AgreeOn.refl s.tree) (.ok ()) sink with
    ⟨e, herror, -⟩ | ⟨-, -, target, -, -, hsame, hplace⟩
  · cases houtcome.symm.trans herror
  · rw [h.modeOf] at hsame hplace
    -- both replace the same entry
    have hinsert := congrArg FileTree.entries (Except.ok.inj (hsupersede.symm.trans hplace))
    obtain rfl : loc = target := congrArg Prod.fst (List.cons.inj hinsert).1
    exact hsame

end FileStore

end RecordSort
