import RecordSort.Proofs.Files.Changes

/-! # Staging files

A staging file lies in the directory of the entry that it is to replace, under a name that no path spells. It is
made when a replacement is begun. When the replacement is concluded it is gone, and beside that nothing has
changed but the entry that was replaced.

* **`Staged`** — a staging file is there, and the way to its directory leads to it.
* **`finish_of_staged`** — a staging file that is finished.
* **`rename_of_staged`** — renaming it replaces the entry that the path names.
* **`stage_ok`**, **`stage_error`** — how a replacement begins.
* **`conclude_of_staged`**, **`conclude_of_reliable`** — how it is concluded: it fails, or it is completed in one
  step; and when it fails if the library is reliable. -/

namespace RecordSort

namespace FileTree

variable {t u v : FileTree} {loc directory : Location} {path : String} {file : TempFile} {mode : Nat}
  {data content : Bytes}

/-- **A staging file is there**: what the parent part of the path resolves to is the directory in which it was
made, and there it has these permission bits and bytes. -/
structure Staged (t : FileTree) (path : String) (file : TempFile) (mode : Nat) (data : Bytes) : Prop where
  /-- The parent part of the path still resolves to the directory. -/
  located : t.locateFolder path = .ok file.directory
  /-- The handle knows the way. -/
  way : file.way = t.fromRoot (Path.folderText path)
  /-- The file is there. -/
  present : t.lookup file.place = some (.file mode data)
  /-- The directory may be changed. -/
  allowed : t.mayChange file.directory = true

/-- The directory that a text names can be spelled. -/
theorem spellable_of_locateDirectory {text : String} (h : t.locateDirectory text = .ok directory) :
    Spellable directory := by
  have hhere : Segment.here.IsPlain := trivial
  refine spellable_of_walk h spellable_nil fun s hs => ?_
  exact Path.isPlain_of_mem_concat (fun _ => isPlain_of_mem_fromRoot) hhere hs

/-- The parent part of a path resolves alike in trees of the same shape. -/
theorem SameShape.locateFolder (h : SameShape t u) (path : String) :
    t.locateFolder path = u.locateFolder path :=
  h.locateDirectory _

/-- What was put where an entry was is there instead of it. -/
theorem same_insert_insert (t : FileTree) (h : loc ≠ []) (e e' : Entry) :
    Same ((t.insert loc e).insert loc e') (t.insert loc e') := by
  refine ⟨rfl, fun other _ => ?_⟩
  by_cases hother : other = loc
  · rw [hother, lookup_insert_self _ h, lookup_insert_self _ h]
  · rw [lookup_insert_of_ne _ hother, lookup_insert_of_ne _ hother, lookup_insert_of_ne _ hother]

/-- An entry that is removed may as well have been another. -/
theorem same_erase_insert (t : FileTree) (h : loc ≠ []) (e : Entry) :
    Same ((t.insert loc e).erase loc) (t.erase loc) := by
  refine ⟨rfl, fun other _ => ?_⟩
  by_cases hother : other = loc
  · rw [hother, lookup_erase_self _ h, lookup_erase_self _ h]
  · rw [lookup_erase_of_ne _ hother, lookup_erase_of_ne _ hother, lookup_insert_of_ne _ hother]

/-- Nothing is changed by putting an entry where it is. -/
theorem same_insert_self {e : Entry} (h : loc ≠ []) (he : t.lookup loc = some e) :
    Same t (t.insert loc e) := by
  refine ⟨rfl, fun other _ => ?_⟩
  by_cases hother : other = loc
  · rw [hother, lookup_insert_self _ h, he]
  · rw [lookup_insert_of_ne _ hother]

namespace Staged

/-- The directory of a staging file can be spelled. -/
theorem spellable (h : t.Staged path file mode data) : Spellable file.directory :=
  spellable_of_locateDirectory h.located

/-- The way that the handle knows leads to the directory. -/
theorem walk_way (h : t.Staged path file mode data) :
    t.walk true maxLinks [] (file.way ++ [.here]) = .ok file.directory := by
  rw [h.way]
  exact h.located

/-- A staging file is still there in a tree of the same shape, with what it has there. -/
theorem transfer (h : t.Staged path file mode data) (hshape : SameShape u t) {mode' : Nat}
    (hpresent : u.lookup file.place = some (.file mode' content)) : u.Staged path file mode' content where
  located := (hshape.locateFolder path).trans h.located
  way := h.way.trans (hshape.fromRoot _).symm
  present := hpresent
  allowed := (hshape.mayChange h.spellable).trans h.allowed

/-- A new temporary file in the directory of the entry that a path names is a staging file. -/
theorem of_made {t' : FileTree} (h : TempFiles.Made t (Path.folderText path) file t') :
    t'.Staged path file TempFile.mode [] := by
  have halike : Alike t' t := by
    rw [h.tree]
    exact alike_insert t (not_spellable_place file) _
  refine ⟨(halike.sameShape.locateFolder path).trans h.located,
    h.way.trans (halike.sameShape.fromRoot _).symm, ?_,
    (halike.mayChange (spellable_of_locateDirectory h.located)).trans h.allowed⟩
  rw [h.tree]
  exact lookup_insert_self t (place_ne_nil file) _

/-- **A staging file that is there is removed** by its handle. -/
theorem dropTemp (h : t.Staged path file mode data) : t.dropTemp file = t.erase file.place := by
  unfold FileTree.dropTemp
  rw [h.walk_way]
  dsimp only
  rw [show file.directory ++ [file.name] = file.place from rfl]
  unfold unlink
  rw [h.present]
  dsimp only
  rw [show file.place.dropLast = file.directory from List.dropLast_concat, h.allowed]
  rfl

/-- A staging file is still there once it has other bytes and permission bits. -/
theorem of_same (h : t.Staged path file mode data) {mode' : Nat}
    (hsame : Same u (t.insert file.place (.file mode' content))) : u.Staged path file mode' content := by
  have halike : Alike u t := hsame.alike.trans (alike_insert t (not_spellable_place file) _)
  refine h.transfer halike.sameShape ?_
  rw [hsame.lookup _ trivial, lookup_insert_self t (place_ne_nil file)]

/-- A staging file that has other bytes and permission bits by now is removed by its handle. -/
theorem dropTemp_of_same (h : t.Staged path file mode data) {mode' : Nat}
    (hsame : Same u (t.insert file.place (.file mode' content))) :
    Same (u.dropTemp file) (t.erase file.place) := by
  rw [(h.of_same hsame).dropTemp]
  exact (AgreeOn.erase hsame (place_ne_nil file)).trans
    (same_erase_insert t (place_ne_nil file) _)

end Staged

/-- Staging files may be made for the same paths in trees that are alike. -/
theorem AgreeOn.mayStage (h : Alike t u) (hstage : t.MayStage path) : u.MayStage path := by
  obtain ⟨hnul, hlength, directory, hfolder, hallowed⟩ := hstage
  refine ⟨hnul, ?_, directory, (h.sameShape.locateFolder path).symm.trans hfolder,
    (h.mayChange (spellable_of_locateDirectory hfolder)).symm.trans hallowed⟩
  unfold tempLength at hlength ⊢
  rw [← h.home]
  exact hlength

/-! ## Finishing -/

/-- A file that is there gets other bytes. -/
theorem setData_of_file (h : t.lookup loc = some (.file mode data)) (content : Bytes) :
    t.setData loc content = t.insert loc (.file mode content) := by
  unfold setData
  rw [h]

/-- A file that is there gets other permission bits. -/
theorem setMode_of_file (h : t.lookup loc = some (.file mode data)) (mode' : Nat) :
    t.setMode loc mode' = t.insert loc (.file mode' data) := by
  unfold setMode
  rw [h]

/-- **A staging file is finished**: nothing but the file has changed. If that succeeds, it has the bytes that it
is given and the permission bits of what the path leads to; and it succeeds on a disk without troubles. -/
theorem finish_of_staged (h : t.Staged path file mode data) (trouble : Trouble) (content : Bytes) :
    let finished := t.finish file.place path trouble content
    (∃ mode' data', Same finished.2 (t.insert file.place (.file mode' data')) ∧
      (finished.1 = .ok () → mode' = (t.modeOf path).getD mode ∧ data' = content)) ∧
      (trouble = {} → finished.1 = .ok ()) := by
  have hroot := place_ne_nil file
  have hwritten := setData_of_file h.present content
  have hmode : (t.insert file.place (.file mode content)).modeOf path = t.modeOf path :=
    (alike_insert t (not_spellable_place file) _).modeOf path
  unfold finish
  rw [hwritten]
  rcases hclosing : trouble.closing with _ | e
  · unfold adoptMode
    rw [hmode]
    rcases htarget : t.modeOf path with _ | target
    · rcases hsyncing : trouble.syncing with _ | e
      · exact ⟨⟨mode, content, AgreeOn.refl _, fun _ => ⟨rfl, rfl⟩⟩, fun _ => rfl⟩
      · refine ⟨⟨mode, content, AgreeOn.refl _, nofun⟩, ?_⟩
        rintro rfl
        cases hsyncing
    · rcases hpermissions : trouble.permissions with _ | e
      · have hadopted := setMode_of_file (lookup_insert_self t hroot (.file mode content)) target
        have hsame := same_insert_insert t hroot (.file mode content) (.file target content)
        rw [← hadopted] at hsame
        rcases hsyncing : trouble.syncing with _ | e
        · exact ⟨⟨target, content, hsame, fun _ => ⟨rfl, rfl⟩⟩, fun _ => rfl⟩
        · refine ⟨⟨target, content, hsame, nofun⟩, ?_⟩
          rintro rfl
          cases hsyncing
      · refine ⟨⟨mode, content, AgreeOn.refl _, nofun⟩, ?_⟩
        rintro rfl
        cases hpermissions
  · refine ⟨⟨mode, data, same_insert_self hroot h.present, nofun⟩, ?_⟩
    rintro rfl
    cases hclosing

/-! ## Renaming -/

/-- The entry that a path names is found alike in trees of the same shape. -/
theorem SameShape.locateEntry (h : SameShape t u) (path : String) :
    t.locateEntry path = u.locateEntry path := by
  have hhere : Segment.here.IsPlain := trivial
  unfold FileTree.locateEntry
  rcases hp : checkPath path with e | p
  · rw [error_bind, error_bind]
  obtain rfl := checkPath_ok hp
  have hplain : ∀ s ∈ (Path.ofText path).segments.dropLast, s.IsPlain :=
    fun _ hs => Path.isPlain_of_mem_segments (List.dropLast_subset _ hs)
  have hwalk : t.walk true maxLinks (t.start (Path.ofText path))
      ((Path.ofText path).segments.dropLast ++ [.here]) =
      u.walk true maxLinks (u.start (Path.ofText path))
        ((Path.ofText path).segments.dropLast ++ [.here]) := by
    rw [h.start]
    exact walk_eq_of_sameShape h (spellable_start u _) fun _ => Path.isPlain_of_mem_concat hplain hhere
  rw [ok_bind, ok_bind, hwalk]

/-- The entry that a path names lies in a directory that can be spelled, and so does the entry. -/
theorem spellable_of_locateEntry {name : Name} (h : t.locateEntry path = .ok (directory, name)) :
    Spellable directory ∧ Spellable (directory ++ [name]) := by
  have hhere : Segment.here.IsPlain := trivial
  unfold locateEntry at h
  rcases hp : checkPath path with e | p <;> rw [hp] at h
  · cases h
  obtain rfl := checkPath_ok hp
  have hplain : ∀ s ∈ (Path.ofText path).segments.dropLast, s.IsPlain :=
    fun _ hs => Path.isPlain_of_mem_segments (List.dropLast_subset _ hs)
  dsimp only [bind, Except.bind] at h
  rcases hw : t.walk true maxLinks (t.start (Path.ofText path))
    ((Path.ofText path).segments.dropLast ++ [.here]) with e | d <;> rw [hw] at h
  · cases h
  dsimp only at h
  split at h
  next name' hlast =>
    obtain ⟨rfl, rfl⟩ : d = directory ∧ name' = name := by simpa using Except.ok.inj h
    have hdirectory : Spellable d := spellable_of_walk hw (spellable_start t _)
      fun _ => Path.isPlain_of_mem_concat hplain hhere
    exact ⟨hdirectory, hdirectory.concat (Path.isPlain_of_mem_segments (List.mem_of_getLast? hlast))⟩
  next => cases h

/-- **Renaming a finished staging file** replaces the entry that the path names, or it fails as that would, in
a tree that is alike. -/
theorem rename_of_staged (h : v.Staged path file ((u.modeOf path).getD TempFile.mode) data)
    (halike : Alike v u) :
    let new := Entry.file ((u.modeOf path).getD TempFile.mode) data
    (∃ e, v.rename file.way file.name path = .error e ∧ u.supersede path data = .error e) ∨
      ∃ target, Spellable target ∧ (∀ mode, u.lookup target ≠ some (.directory mode)) ∧
        v.rename file.way file.name path = .ok ((v.erase file.place).insert target new) ∧
        u.supersede path data = .ok (u.insert target new) := by
  intro new
  unfold rename supersede
  rw [halike.sameShape.locateEntry]
  rcases hp : checkPath path with e | p
  · exact .inl ⟨e, rfl, rfl⟩
  rcases hentry : u.locateEntry path with e | ⟨directory, name⟩
  · simp only [bind, Except.bind, h.walk_way]
    exact .inl ⟨e, rfl, rfl⟩
  obtain ⟨hdirectory, hspell⟩ := spellable_of_locateEntry hentry
  have hplace : file.directory ++ [file.name] = file.place := rfl
  simp only [bind, Except.bind, pure, Except.pure, throw, throwThe, MonadExceptOf.throw, h.walk_way,
    hplace, h.present, h.allowed, halike.mayChange hdirectory, halike.lookup _ hspell, Bool.true_and]
  split
  · exact .inl ⟨_, rfl, rfl⟩
  split
  · exact .inl ⟨_, rfl, rfl⟩
  split
  · exact .inl ⟨_, rfl, rfl⟩
  split
  · exact .inl ⟨_, rfl, rfl⟩
  next hfree =>
    refine .inr ⟨directory ++ [name], hspell, fun mode hmode => hfree ?_, rfl, rfl⟩
    rw [hmode]
    rfl

end FileTree

namespace FileStore

open FileTree

variable {lib : TempFiles} {s s' : FileStore lib} {path : String} {staging : Staging} {sink : ByteSink}

/-! ## How a replacement begins -/

/-- A replacement that cannot be begun leaves the tree as it is. -/
theorem stage_error (hlib : lib.Lawful) {e : StreamError} (h : s.stage path = (.error e, s')) :
    s'.tree = s.tree := by
  unfold stage at h
  rcases hcreate : lib.create s.turn s.tree (Path.folderText path) with ⟨cause | file, t⟩ <;>
    rw [hcreate] at h <;> cases h
  exact hlib.create_error hcreate

/-- With a reliable library a replacement **is begun** wherever its staging file may be made. -/
theorem stage_of_mayStage (hlib : lib.Reliable) (h : s.tree.MayStage path) :
    ∃ staged, (s.stage path).1 = .ok staged := by
  obtain ⟨hnul, hlength, directory, hfolder, hallowed⟩ := h
  obtain ⟨file, hfile⟩ := hlib.create s.turn hnul hlength hfolder hallowed
  unfold stage
  rcases hcreate : lib.create s.turn s.tree (Path.folderText path) with ⟨cause | file', t⟩ <;>
    rw [hcreate] at hfile <;> cases hfile
  exact ⟨_, rfl⟩

/-- **A replacement begins** with a new staging file, and with a sink that has the troubles of its turn. -/
theorem stage_ok (hlib : lib.Lawful) (h : s.stage path = (.ok (staging, sink), s')) :
    TempFiles.Made s.tree (Path.folderText path) staging.file s'.tree ∧
      sink = { plan := (lib.trouble s.turn).plan, flushPlan := (lib.trouble s.turn).flushPlan } := by
  unfold stage at h
  rcases hcreate : lib.create s.turn s.tree (Path.folderText path) with ⟨cause | file, t⟩ <;>
    rw [hcreate] at h <;> cases h
  exact ⟨hlib.create_ok hcreate, rfl⟩

/-! ## How a replacement is concluded -/

/-- A replacement that was not filled is discarded. -/
theorem conclude_error (e : StreamError) :
    ChunkStore.conclude path staging (.error e, sink, s) = (.error e, s.discard staging) := by
  unfold ChunkStore.conclude
  rfl

/-- A replacement that was filled is committed. -/
theorem conclude_ok :
    ChunkStore.conclude path staging (.ok (), sink, s) = s.commit path staging sink := by
  unfold ChunkStore.conclude
  rfl

/-- **A staging file is gone** once it is discarded, whatever it has become. -/
theorem discard_of_same (hlib : lib.Lawful) {t : FileTree} {mode mode' : Nat} {data data' : Bytes}
    (hstaged : t.Staged path staging.file mode data)
    (hsame : Same s.tree (t.insert staging.file.place (.file mode' data'))) :
    Same (s.discard staging).tree (t.erase staging.file.place) := by
  show Same (lib.drop s.tree staging.file) _
  rw [hlib.drop_eq]
  exact hstaged.dropTemp_of_same hsame

/-- **A replacement is concluded** in one of two ways. It fails, and the staging file is gone; or it was filled,
and in one step the staging file is gone and the entry that the path names has been replaced. -/
theorem conclude_of_staged (hlib : lib.Lawful)
    (hstaged : s.tree.Staged path staging.file TempFile.mode []) {u : FileTree} (h : Alike s.tree u)
    (filled : Except StreamError Unit) (sink : ByteSink) :
    let concluded := ChunkStore.conclude path staging (filled, sink, s)
    let new := Entry.file ((u.modeOf path).getD TempFile.mode) sink.contents
    (∃ e, concluded.1 = .error e ∧ (filled = .error e ∨ filled = .ok ()) ∧
      Same concluded.2.tree (s.tree.erase staging.file.place)) ∨
    (concluded.1 = .ok () ∧ filled = .ok () ∧
      ∃ target, Spellable target ∧ (∀ mode, u.lookup target ≠ some (.directory mode)) ∧
        Same concluded.2.tree ((s.tree.erase staging.file.place).insert target new) ∧
        u.supersede path sink.contents = .ok (u.insert target new)) := by
  have hroot := place_ne_nil staging.file
  rcases filled with e | _
  · rw [conclude_error]
    exact .inl ⟨e, rfl, .inl rfl, discard_of_same hlib hstaged (same_insert_self hroot hstaged.present)⟩
  rw [conclude_ok]
  unfold commit
  obtain ⟨⟨mode, data, hsame, hfinished⟩, -⟩ :=
    finish_of_staged hstaged (lib.trouble staging.turn) sink.contents
  rcases hfinish : s.tree.finish staging.file.place path (lib.trouble staging.turn) sink.contents with
    ⟨e | _, t⟩ <;> rw [hfinish] at hsame hfinished <;> dsimp only at hsame ⊢
  -- it cannot be finished
  · exact .inl ⟨e, rfl, .inr rfl, discard_of_same hlib hstaged hsame⟩
  rcases hpersist : lib.persist staging.turn t staging.file path with ⟨e | _, t'⟩ <;> dsimp only
  -- it is finished, but it cannot be put in place
  · obtain rfl := hlib.persist_error hpersist
    exact .inl ⟨e, rfl, .inr rfl, discard_of_same hlib hstaged hsame⟩
  -- it is put in place
  obtain ⟨rfl, rfl⟩ := hfinished rfl
  rw [h.modeOf path] at hsame
  have halike : Alike t s.tree := hsame.alike.trans (alike_insert _ (not_spellable_place staging.file) _)
  rcases rename_of_staged (hstaged.of_same hsame) (halike.trans h) with
    ⟨e, hrename, -⟩ | ⟨target, hspell, hfree, hrename, hsupersede⟩
  · cases (hlib.persist_ok hpersist).symm.trans hrename
  refine .inr ⟨rfl, rfl, target, hspell, hfree, ?_, hsupersede⟩
  cases (hlib.persist_ok hpersist).symm.trans hrename
  refine AgreeOn.insert ?_ (ne_nil_of_not_directory hfree) _
  exact (AgreeOn.erase hsame hroot).trans (same_erase_insert _ hroot _)

/-- **With a reliable library** a replacement that was filled fails only if the entry that the path names cannot
be replaced. -/
theorem conclude_of_reliable (hlib : lib.Reliable)
    (hstaged : s.tree.Staged path staging.file TempFile.mode []) {u : FileTree} (h : Alike s.tree u)
    (sink : ByteSink) :
    (ChunkStore.conclude path staging (.ok (), sink, s)).1 =
      match u.supersede path sink.contents with
      | .error e => .error (.system e)
      | .ok _ => .ok () := by
  rw [conclude_ok]
  unfold commit
  obtain ⟨⟨mode, data, hsame, hfinished⟩, hcalm⟩ :=
    finish_of_staged hstaged (lib.trouble staging.turn) sink.contents
  rcases hfinish : s.tree.finish staging.file.place path (lib.trouble staging.turn) sink.contents with
    ⟨e | _, t⟩ <;> rw [hfinish] at hsame hfinished hcalm <;> dsimp only at hsame ⊢
  · cases hcalm (hlib.calm _)
  obtain ⟨rfl, rfl⟩ := hfinished rfl
  rw [h.modeOf path] at hsame
  have halike : Alike t s.tree := hsame.alike.trans (alike_insert _ (not_spellable_place staging.file) _)
  -- the outcome is that of the renaming
  have hpersist := hlib.persist staging.turn t staging.file path
  rcases rename_of_staged (hstaged.of_same hsame) (halike.trans h) with
    ⟨e, hrename, hsupersede⟩ | ⟨target, -, -, hrename, hsupersede⟩
  · rw [hrename] at hpersist
    rw [hsupersede]
    rcases hanswer : lib.persist staging.turn t staging.file path with ⟨outcome, t'⟩
    rw [hanswer] at hpersist
    obtain rfl : outcome = .error (.system e) := hpersist
    rfl
  · rw [hrename] at hpersist
    rw [hsupersede]
    rcases hanswer : lib.persist staging.turn t staging.file path with ⟨outcome, t'⟩
    rw [hanswer] at hpersist
    obtain rfl : outcome = .ok () := hpersist
    rfl

end FileStore

end RecordSort
