import RecordSort.Files.Temporary

/-! # Ways through a file tree

A way is followed piece by piece. What one piece leads to depends on two entries at most: on the one where
one stands and on the one that the piece names. So trees that have entries of the same shapes lead every way
to the same place.

* **`Stride`**, **`stride`**, **`walk_cons`** — what one piece of a way leads to.
* **`walk_induction`** — properties of ways, stride by stride.
* **`Spellable`** — a location that a path can spell, which is to say that no name of a staging file is on
  the way to it.
* **`SameShape`**, **`walk_eq_of_sameShape`** — trees that lead all ways alike. -/

namespace RecordSort

/-! ## Names that a path can spell -/

/-- A name that a path can spell. -/
def Name.IsPlain : Name → Prop
  | .plain _ => True
  | .staging _ => False

/-- A piece that a path can spell. -/
def Segment.IsPlain : Segment → Prop
  | .here | .up | .slash => True
  | .entry name => name.IsPlain

/-- **Paths spell plain names only.** -/
theorem Path.isPlain_of_mem_segments {text : String} {segment : Segment}
    (h : segment ∈ (Path.ofText text).segments) : segment.IsPlain := by
  obtain ⟨piece, -, rfl⟩ := List.mem_map.1 h
  unfold Segment.ofText
  split
  · trivial
  split
  · trivial
  · trivial

/-- A way with a piece added that a path can spell. -/
theorem Path.isPlain_of_mem_concat {way : List Segment} {last segment : Segment}
    (hway : ∀ s ∈ way, s.IsPlain) (hlast : last.IsPlain) (h : segment ∈ way ++ [last]) :
    segment.IsPlain := by
  rcases List.mem_append.1 h with h | h
  · exact hway segment h
  · rw [List.mem_singleton.1 h]
    exact hlast

/-- The way to what a path names is made of pieces that it can spell. -/
theorem Path.isPlain_of_mem_route {text : String} {segment : Segment}
    (h : segment ∈ (Path.ofText text).route) : segment.IsPlain := by
  unfold Path.route at h
  split at h
  · have hslash : Segment.slash.IsPlain := trivial
    exact isPlain_of_mem_concat (fun _ => isPlain_of_mem_segments) hslash h
  · exact isPlain_of_mem_segments h

/-- The entry without the bytes and the permission bits of a file: its **shape**. -/
def Entry.shape : Entry → Entry
  | .file _ _ => .file 0 []
  | .directory mode => .directory mode
  | .link target => .link target

namespace FileTree

/-- A **location that a path can spell**: only plain names are on the way to it. -/
def Spellable (loc : Location) : Prop := ∀ name ∈ loc, name.IsPlain

/-- The root can be spelled. -/
theorem spellable_nil : Spellable [] := fun _ h => absurd h List.not_mem_nil

/-- The location above one that can be spelled. -/
theorem Spellable.dropLast {loc : Location} (h : Spellable loc) : Spellable loc.dropLast :=
  fun name hname => h name (List.dropLast_subset _ hname)

/-- A location in a directory that can be spelled. -/
theorem Spellable.concat {loc : Location} (h : Spellable loc) {name : Name} (hname : name.IsPlain) :
    Spellable (loc ++ [name]) := by
  intro other hother
  rcases List.mem_append.1 hother with hmem | hmem
  · exact h other hmem
  · rw [List.mem_singleton.1 hmem]
    exact hname

/-- Paths can start at spellable locations only. -/
theorem spellable_start (t : FileTree) (p : Path) : Spellable (t.start p) := by
  intro name hname
  unfold start at hname
  split at hname
  · cases hname
  · obtain ⟨text, -, rfl⟩ := List.mem_map.1 hname
    trivial

/-- The way from the root to what a text names is made of pieces that a path can spell. -/
theorem isPlain_of_mem_fromRoot {t : FileTree} {text : String} {segment : Segment}
    (h : segment ∈ t.fromRoot text) : segment.IsPlain := by
  unfold fromRoot at h
  rcases List.mem_append.1 h with h | h
  · split at h
    · cases h
    · obtain ⟨name, hname, rfl⟩ := List.mem_map.1 h
      obtain ⟨text, -, rfl⟩ := List.mem_map.1 hname
      trivial
  · exact Path.isPlain_of_mem_segments h

/-- **The location of a staging file is not spellable.** -/
theorem not_spellable_place (file : TempFile) : ¬ Spellable file.place :=
  fun h => h file.name (List.mem_append_right _ (List.mem_singleton.2 rfl))

/-- A staging file does not lie at the root. -/
theorem place_ne_nil (file : TempFile) : file.place ≠ [] := by
  unfold TempFile.place
  simp

/-! ## Strides -/

/-- What **one piece of a way** leads to. -/
inductive Stride
  /-- The way ends, well or not. -/
  | stop (answer : Except SystemError Location)
  /-- The way goes on. -/
  | on (links : Nat) (loc : Location) (segments : List Segment)

/-- The piece of a way that is followed first, where `rest` are the pieces behind it. -/
def stride (t : FileTree) (follow : Bool) (links : Nat) (loc : Location) (segment : Segment)
    (rest : List Segment) : Stride :=
  match t.admits loc segment with
  | .error e => .stop (.error e)
  | .ok () =>
    match segment with
    | .here | .slash => .on links loc rest
    | .up => .on links loc.dropLast rest
    | .entry name =>
      if Name.maxLength < name.length then .stop (.error .nameTooLong)
      else if rest = [] ∧ !follow then .stop (.ok (loc ++ [name]))
      else
        match t.lookup (loc ++ [name]) with
        | none => .stop (if rest = [] then .ok (loc ++ [name]) else .error .noEntry)
        | some (.file _ _) | some (.directory _) => .on links (loc ++ [name]) rest
        | some (.link target) =>
          match links with
          | 0 => .stop (.error .tooManyLinks)
          | links + 1 =>
            .on links (if (Path.ofText target).absolute then [] else loc)
              ((Path.ofText target).route ++ rest)

variable {t u : FileTree} {follow : Bool} {links : Nat} {loc : Location} {segment : Segment}
  {segments rest : List Segment}

/-- A way without pieces leads nowhere else. -/
@[simp] theorem walk_nil (t : FileTree) (follow : Bool) (links : Nat) (loc : Location) :
    t.walk follow links loc [] = .ok loc := by
  cases links <;> rfl

/-- **A way is followed stride by stride.** -/
theorem walk_cons (t : FileTree) (follow : Bool) (links : Nat) (loc : Location) (segment : Segment)
    (rest : List Segment) :
    t.walk follow links loc (segment :: rest) =
      match t.stride follow links loc segment rest with
      | .stop answer => answer
      | .on links loc segments => t.walk follow links loc segments := by
  unfold stride
  cases links <;>
  · rw [walk, walkStraight.eq_def]
    dsimp only
    rcases t.admits loc segment with e | _
    · rfl
    cases segment with
    | here => rfl
    | up => rfl
    | slash => rfl
    | entry name =>
      dsimp only
      split
      · rfl
      split
      · rfl
      rcases t.lookup (loc ++ [name]) with _ | ⟨_ | _ | target⟩ <;> rfl

/-- How a stride **leads on**: what becomes of the number of links, of the location and of the pieces. -/
inductive Onward (t : FileTree) (links : Nat) (loc : Location) (rest : List Segment) :
    Segment → Nat → Location → List Segment → Prop
  /-- The piece stays. -/
  | stay (segment : Segment) (h : segment = .here ∨ segment = .slash) :
      Onward t links loc rest segment links loc rest
  /-- The piece goes up. -/
  | up : Onward t links loc rest .up links loc.dropLast rest
  /-- The piece goes to a file or to a directory. -/
  | into (name : Name) (e : Entry) (hshort : name.length ≤ Name.maxLength)
      (hentry : t.lookup (loc ++ [name]) = some e) (hlink : ∀ target, e ≠ .link target) :
      Onward t links loc rest (.entry name) links (loc ++ [name]) rest
  /-- The piece goes to a symbolic link, and the way goes on along its target. -/
  | along (name : Name) (target : String) (left : Nat) (hleft : links = left + 1) :
      Onward t links loc rest (.entry name) left (if (Path.ofText target).absolute then [] else loc)
        ((Path.ofText target).route ++ rest)

/-- **A stride that leads on** takes a piece that is admitted, in one of four ways. -/
theorem onward_of_stride {links' : Nat} {loc' : Location}
    (h : t.stride follow links loc segment rest = .on links' loc' segments) :
    t.admits loc segment = .ok () ∧ Onward t links loc rest segment links' loc' segments := by
  unfold stride at h
  rcases hadmits : t.admits loc segment with e | _ <;> rw [hadmits] at h
  · cases h
  refine ⟨rfl, ?_⟩
  cases segment with
  | here => cases h; exact .stay _ (.inl rfl)
  | slash => cases h; exact .stay _ (.inr rfl)
  | up => cases h; exact .up
  | entry name =>
    dsimp only at h
    split at h
    · cases h
    next hlong =>
    split at h
    · cases h
    split at h
    · cases h
    next hentry => cases h; exact .into name _ (Nat.not_lt.1 hlong) hentry nofun
    next hentry => cases h; exact .into name _ (Nat.not_lt.1 hlong) hentry nofun
    split at h
    · cases h
    · cases h; exact .along name _ _ rfl

/-- **A stride that ends a way well** takes a last name. -/
theorem exists_of_stride_stop {loc' : Location}
    (h : t.stride follow links loc segment rest = .stop (.ok loc')) :
    t.admits loc segment = .ok () ∧ ∃ name, segment = .entry name ∧ loc' = loc ++ [name] ∧
      name.length ≤ Name.maxLength ∧ rest = [] ∧ (follow = true → t.lookup loc' = none) := by
  unfold stride at h
  rcases hadmits : t.admits loc segment with e | _ <;> rw [hadmits] at h
  · cases h
  refine ⟨rfl, ?_⟩
  cases segment with
  | here => cases h
  | slash => cases h
  | up => cases h
  | entry name =>
    dsimp only at h
    split at h
    · cases h
    next hlong =>
    split at h
    next hlast =>
      cases h
      refine ⟨name, rfl, rfl, Nat.not_lt.1 hlong, hlast.1, fun hfollow => ?_⟩
      rw [hfollow] at hlast
      cases hlast.2
    split at h
    next hnone =>
      split at h
      next hrest => cases h; exact ⟨name, rfl, rfl, Nat.not_lt.1 hlong, hrest, fun _ => hnone⟩
      · cases h
    · cases h
    · cases h
    split at h
    · cases h
    · cases h

/-- A stride follows a link, or it leaves less of the way. -/
theorem stride_lt {links' : Nat} {loc' : Location}
    (h : t.stride follow links loc segment rest = .on links' loc' segments) :
    links' < links ∨ links' = links ∧ segments.length < (segment :: rest).length := by
  cases (onward_of_stride h).2 with
  | stay _ _ => exact .inr ⟨rfl, Nat.lt_succ_self _⟩
  | up => exact .inr ⟨rfl, Nat.lt_succ_self _⟩
  | into _ _ _ _ _ => exact .inr ⟨rfl, Nat.lt_succ_self _⟩
  | along _ _ _ hleft => exact .inl (hleft ▸ Nat.lt_succ_self _)

/-- **Induction along a way**: what holds where a way ends, and what a stride carries back, holds of every
way. -/
theorem walk_induction (t : FileTree) (follow : Bool) {P : Nat → Location → List Segment → Prop}
    (hnil : ∀ links loc, P links loc [])
    (hstop : ∀ links loc segment rest answer,
      t.stride follow links loc segment rest = .stop answer → P links loc (segment :: rest))
    (hon : ∀ links loc segment rest links' loc' segments,
      t.stride follow links loc segment rest = .on links' loc' segments → P links' loc' segments →
        P links loc (segment :: rest))
    (links : Nat) (loc : Location) (segments : List Segment) : P links loc segments := by
  generalize hn : segments.length = n
  induction links using Nat.strongRecOn generalizing n loc segments with
  | _ links outer =>
  induction n using Nat.strongRecOn generalizing loc segments with
  | _ n ih =>
    rcases segments with - | ⟨segment, rest⟩
    · exact hnil links loc
    rcases hs : t.stride follow links loc segment rest with answer | ⟨links', loc', segments⟩
    · exact hstop _ _ _ _ _ hs
    · refine hon _ _ _ _ _ _ _ hs ?_
      rcases stride_lt hs with h | ⟨rfl, h⟩
      · exact outer links' h _ _ _ rfl
      · exact ih _ (by rw [← hn]; exact h) _ _ rfl

/-! ## Spellable ways -/

/-- A stride of a spellable way leads to a spellable location, and what is left of the way is spellable. -/
theorem spellable_of_stride_on {links' : Nat} {loc' : Location}
    (h : t.stride follow links loc segment rest = .on links' loc' segments) (hloc : Spellable loc)
    (hway : ∀ s ∈ segment :: rest, s.IsPlain) :
    Spellable loc' ∧ ∀ s ∈ segments, s.IsPlain := by
  have hrest : ∀ s ∈ rest, s.IsPlain := fun s hs => hway s (List.mem_cons_of_mem _ hs)
  have hsegment : segment.IsPlain := hway _ List.mem_cons_self
  cases (onward_of_stride h).2 with
  | stay _ _ => exact ⟨hloc, hrest⟩
  | up => exact ⟨hloc.dropLast, hrest⟩
  | into _ _ _ _ _ => exact ⟨hloc.concat hsegment, hrest⟩
  | along _ target _ _ =>
    refine ⟨?_, fun s hs => ?_⟩
    · split
      · exact spellable_nil
      · exact hloc
    · rcases List.mem_append.1 hs with hs | hs
      · exact Path.isPlain_of_mem_route hs
      · exact hrest s hs

/-- A stride that ends a spellable way ends at a spellable location. -/
theorem spellable_of_stride_stop {loc' : Location}
    (h : t.stride follow links loc segment rest = .stop (.ok loc')) (hloc : Spellable loc)
    (hway : ∀ s ∈ segment :: rest, s.IsPlain) : Spellable loc' := by
  have hsegment : segment.IsPlain := hway _ List.mem_cons_self
  obtain ⟨-, name, rfl, rfl, -⟩ := exists_of_stride_stop h
  exact hloc.concat hsegment

/-- **Spellable ways lead to spellable locations.** -/
theorem spellable_of_walk {loc' : Location} (h : t.walk follow links loc segments = .ok loc')
    (hloc : Spellable loc) (hway : ∀ s ∈ segments, s.IsPlain) : Spellable loc' := by
  revert h hloc hway
  refine walk_induction t follow
    (P := fun links loc segments => t.walk follow links loc segments = .ok loc' → Spellable loc →
      (∀ s ∈ segments, s.IsPlain) → Spellable loc') ?_ ?_ ?_ links loc segments
  · intro links loc h hloc _
    cases h.symm.trans (walk_nil t follow links loc)
    exact hloc
  · intro links loc segment rest answer hs h hloc hway
    rw [walk_cons, hs] at h
    exact spellable_of_stride_stop (hs.trans (congrArg _ h)) hloc hway
  · intro links loc segment rest links' loc' segments hs ih h hloc hway
    rw [walk_cons, hs] at h
    obtain ⟨hloc', hway'⟩ := spellable_of_stride_on hs hloc hway
    exact ih h hloc' hway'

/-! ## Trees of the same shape -/

/-- Two trees have the **same shape** if they differ in the bytes and the permission bits of files only, as
far as paths can tell. -/
structure SameShape (t u : FileTree) : Prop where
  /-- The working directory is the same. -/
  home : t.home = u.home
  /-- The entries have the same shapes. -/
  shape : ∀ loc, Spellable loc → (t.lookup loc).map Entry.shape = (u.lookup loc).map Entry.shape

/-- Trees that have the shape of a third one have the same shape. -/
theorem SameShape.trans {v : FileTree} (h : SameShape t u) (h' : SameShape u v) : SameShape t v :=
  ⟨h.home.trans h'.home, fun loc hloc => (h.shape loc hloc).trans (h'.shape loc hloc)⟩

/-- Paths start at the same location in trees of the same shape. -/
theorem SameShape.start (h : SameShape t u) (p : Path) : t.start p = u.start p := by
  unfold FileTree.start workplace
  rw [h.home]

/-- Ways from the root are the same in trees of the same shape. -/
theorem SameShape.fromRoot (h : SameShape t u) (text : String) : t.fromRoot text = u.fromRoot text := by
  unfold FileTree.fromRoot workplace
  rw [h.home]

/-- The same pieces are admitted in trees of the same shape. -/
theorem SameShape.admits (h : SameShape t u) (hloc : Spellable loc) (segment : Segment) :
    t.admits loc segment = u.admits loc segment := by
  have hshape := h.shape loc hloc
  unfold FileTree.admits
  revert hshape
  rcases t.lookup loc with _ | ⟨_ | _ | _⟩ <;> rcases u.lookup loc with _ | ⟨_ | _ | _⟩ <;>
    intro hshape <;> simp [Entry.shape] at hshape
  · rfl
  · rfl
  · rw [hshape]
  · rfl

/-- The same directories may be changed in trees of the same shape. -/
theorem SameShape.mayChange (h : SameShape t u) (hloc : Spellable loc) :
    t.mayChange loc = u.mayChange loc := by
  have hshape := h.shape loc hloc
  unfold FileTree.mayChange
  revert hshape
  rcases t.lookup loc with _ | ⟨_ | _ | _⟩ <;> rcases u.lookup loc with _ | ⟨_ | _ | _⟩ <;>
    intro hshape <;> simp [Entry.shape] at hshape
  · rfl
  · rfl
  · rw [hshape]
  · rfl

/-- A stride is the same in trees of the same shape. -/
theorem SameShape.stride (h : SameShape t u) (hloc : Spellable loc) (hsegment : segment.IsPlain) :
    t.stride follow links loc segment rest = u.stride follow links loc segment rest := by
  unfold FileTree.stride
  rw [h.admits hloc]
  rcases u.admits loc segment with e | _
  · rfl
  cases segment with
  | here => rfl
  | up => rfl
  | slash => rfl
  | entry name =>
    have hshape := h.shape (loc ++ [name]) (hloc.concat hsegment)
    dsimp only
    split
    · rfl
    split
    · rfl
    revert hshape
    rcases t.lookup (loc ++ [name]) with _ | ⟨_ | _ | _⟩ <;>
      rcases u.lookup (loc ++ [name]) with _ | ⟨_ | _ | _⟩ <;>
      intro hshape <;> simp [Entry.shape] at hshape
    · rfl
    · rfl
    · rfl
    · rw [hshape]

/-- **Trees of the same shape lead spellable ways alike.** -/
theorem walk_eq_of_sameShape (h : SameShape t u) (hloc : Spellable loc)
    (hway : ∀ s ∈ segments, s.IsPlain) :
    t.walk follow links loc segments = u.walk follow links loc segments := by
  revert hloc hway
  refine walk_induction t follow
    (P := fun links loc segments => Spellable loc → (∀ s ∈ segments, s.IsPlain) →
      t.walk follow links loc segments = u.walk follow links loc segments) ?_ ?_ ?_ links loc segments
  · intro links loc _ _
    rw [walk_nil, walk_nil]
  · intro links loc segment rest answer hs hloc hway
    rw [walk_cons, walk_cons, ← h.stride hloc (hway _ List.mem_cons_self), hs]
  · intro links loc segment rest links' loc' segments hs ih hloc hway
    obtain ⟨hloc', hway'⟩ := spellable_of_stride_on hs hloc hway
    rw [walk_cons, walk_cons, ← h.stride hloc (hway _ List.mem_cons_self), hs]
    exact ih hloc' hway'

/-- **Directories are found alike** in trees of the same shape. -/
theorem SameShape.locateDirectory (h : SameShape t u) (text : String) :
    t.locateDirectory text = u.locateDirectory text := by
  have hhere : Segment.here.IsPlain := trivial
  unfold FileTree.locateDirectory
  rw [h.fromRoot]
  refine walk_eq_of_sameShape h spellable_nil fun s hs => ?_
  exact Path.isPlain_of_mem_concat (fun _ => isPlain_of_mem_fromRoot) hhere hs

end FileTree

end RecordSort
