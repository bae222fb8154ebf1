import RecordSort.Proofs.Files.Named
import RecordSort.Proofs.Chunk.MemoryFrames
import RecordSort.Proofs.Sort.Progress

/-! # Files and chunks in memory, side by side

Workers that sort files and workers that sort chunks in memory take the same steps, where the chunks have the
contents of the files, and two of them share a content if they are one file. Step by step the files hold what the
chunks hold; in between, the staging files of any number of workers lie beside them.

* **`Twin`**, **`Twins`** — files and the chunks in memory that stand for them.
* **`Stageable`** — files beside which staging files may be made.
* **`Twins.load`**, **`Twins.openChunks`** — files and chunks are read alike.
* **`Pair`**, **`Underway`** — two workers each, how far they have come, and what the tree and the memory hold
  meanwhile.
* **`Underway.addStaging`**, **`Underway.dropStaging`** — a staging file comes and goes.
* **`Underway.stage`**, **`Underway.conclude`**, **`Underway.step`** — what the steps of a worker keep.
* **`SideBySide`** — two workshops, the one with files and the other with chunks in memory. -/

namespace RecordSort

open FileTree

/-- A **file and a chunk in memory** that stands for it. -/
structure Twin where
  /-- A path that names the file. -/
  path : String
  /-- Where the file lies. -/
  loc : Location
  /-- The permission bits of the file. -/
  mode : Nat
  /-- The chunk. -/
  chunk : Nat

/-- **Files and chunks have the same contents**: every path names a readable file, and the chunk has its
content and a script in which nothing fails. Chunks share a content exactly if they stand for one file. -/
structure Twins (twins : List Twin) (t : FileTree) (m : Memory) : Prop where
  /-- Every chunk has its content in a cell. -/
  wellFormed : m.WellFormed
  /-- Every path names a file with the content of the chunk. -/
  file : ∀ w ∈ twins, t.NamesFile w.path w.loc w.mode (m.content w.chunk)
  /-- Every chunk exists, and nothing fails it. -/
  chunk : ∀ w ∈ twins, ∃ c, m.chunks[w.chunk]? = some c ∧ c.openings = [] ∧ c.replacings = []
  /-- Contents are shared as files are. -/
  shares : ∀ v ∈ twins, ∀ w ∈ twins, m.sharesCell v.chunk w.chunk = true ↔ v.loc = w.loc

/-- **A staging file may be made** beside a file: a relative path starts from a directory that is reached from the
root, the directory of the file may be changed, and the system takes the path of the staging file. -/
structure Stageable (t : FileTree) (w : Twin) : Prop where
  /-- A relative path starts from a directory that is reached. -/
  reachable : t.StartReachable w.path
  /-- The directory of the file may be changed. -/
  allowed : t.mayChange w.loc.dropLast = true
  /-- The path of the staging file is not longer than the system takes. -/
  short : t.tempLength (Path.folderText w.path) ≤ Path.maxLength

variable {twins : List Twin} {v w : Twin} {t u u' : FileTree} {m m' : Memory} {lib : TempFiles}

/-- What is stageable is so in trees of the same shape. -/
theorem Stageable.later (h : Stageable t w) (hshape : SameShape u t) (hloc : Spellable w.loc) :
    Stageable u w where
  reachable := h.reachable.later hshape
  allowed := (hshape.mayChange hloc.dropLast).trans h.allowed
  short := by
    have hshort := h.short
    unfold tempLength at hshort ⊢
    rw [hshape.home]
    exact hshort

namespace Twins

/-! ## Reading -/

/-- Which files there are does not depend on their order. -/
theorem of_mem {twins' : List Twin} (h : Twins twins t m) (hmem : ∀ w ∈ twins', w ∈ twins) :
    Twins twins' t m where
  wellFormed := h.wellFormed
  file w hw := h.file w (hmem w hw)
  chunk w hw := h.chunk w (hmem w hw)
  shares v hv w hw := h.shares v (hmem v hv) w (hmem w hw)

/-- Files and chunks still have the same contents once contents have changed alike. -/
theorem later (h : Twins twins t m) (hlater : m.Later m') (hshape : SameShape u t)
    (hfile : ∀ w ∈ twins, u.lookup w.loc = some (.file w.mode (m'.content w.chunk))) :
    Twins twins u m' where
  wellFormed := hlater.wellFormed h.wellFormed
  file w hw := (h.file w hw).later hshape (hfile w hw)
  chunk w hw := by
    obtain ⟨c, hc, hopenings, hreplacings⟩ := h.chunk w hw
    obtain ⟨c', hc', hlater'⟩ := hlater.exists_chunk hc
    refine ⟨c', hc', ?_, ?_⟩
    · exact List.suffix_nil.1 (hopenings ▸ hlater'.openings)
    · exact List.suffix_nil.1 (hreplacings ▸ hlater'.replacings)
  shares v hv w hw := by
    rw [hlater.sharesCell_eq]
    exact h.shares v hv w hw

/-- A chunk may have used up some of its script, which is empty. -/
theorem setChunk (h : Twins twins t m) {i : Nat} {c c' : MemoryChunk} (hc : m.chunks[i]? = some c)
    (hlater : c.Later c') : Twins twins t (m.setChunk i c') := by
  refine h.later (Memory.later_setChunk hc hlater) (AgreeOn.refl t).sameShape fun w hw => ?_
  rw [Memory.content_setChunk hc hlater.cell]
  exact (h.file w hw).file

/-- Files that share a location have one mode. -/
theorem mode_eq (h : Twins twins t m) (hv : v ∈ twins) (hw : w ∈ twins) (hloc : v.loc = w.loc) :
    v.mode = w.mode := by
  have hfile := (h.file v hv).file
  rw [hloc, (h.file w hw).file, Option.some.injEq, Entry.file.injEq] at hfile
  exact hfile.1.symm

/-- **Both are opened**, and the same bytes are handed out. -/
theorem openRead {files : FileStore lib} (h : Twins twins files.tree m) (hw : w ∈ twins) :
    ChunkStore.openRead files w.path = (.ok { data := m.content w.chunk }, files) ∧
      ∃ m', ChunkStore.openRead m w.chunk = (.ok { data := m.content w.chunk }, m') ∧
        Twins twins files.tree m' := by
  obtain ⟨c, hc, hopenings, -⟩ := h.chunk w hw
  have hnext : c.nextOpening = .serve [] := by
    unfold MemoryChunk.nextOpening
    rw [hopenings]
    rfl
  refine ⟨?_, m.setChunk w.chunk c.noteOpening, ?_, h.setChunk hc c.later_noteOpening⟩
  · show (files.tree.openRead w.path, files) = _
    rw [(h.file w hw).openRead]
  · show m.openRead w.chunk = _
    rw [Memory.openRead_eq hc, hnext]

/-- **Both are loaded**, with the same records. -/
theorem load {files : FileStore lib} (h : Twins twins files.tree m) (hw : w ∈ twins) (s : ChunkSorter) :
    ∃ outcome m', s.load files w.path = (outcome, files) ∧ s.load m w.chunk = (outcome, m') ∧
      Twins twins files.tree m' := by
  obtain ⟨hfile, m', hmemory, htwins⟩ := h.openRead hw
  let out := drain (s.reader { data := m.content w.chunk })
  refine ⟨out.outcome.map fun _ => out.records, m', ?_, ?_, htwins⟩
  · unfold ChunkSorter.load
    rw [hfile]
  · unfold ChunkSorter.load
    rw [hmemory]

/-- A replacement of a chunk is staged, and the records are written to a sink that does not fail. -/
theorem stage (h : Twins twins t m) (hw : w ∈ twins) (s : ChunkSorter) (records : List Record) :
    ∃ m', s.stage m w.chunk records = (.ok (none, saveRecords s.delimiter records {}), m') ∧
      Twins twins t m' := by
  obtain ⟨c, hc, -, hreplacings⟩ := h.chunk w hw
  have hnext : c.nextReplacing = {} := by
    unfold MemoryChunk.nextReplacing
    rw [hreplacings]
    rfl
  refine ⟨m.setChunk w.chunk c.noteReplacing, ?_, h.setChunk hc c.later_noteReplacing⟩
  rw [ChunkSorter.stage_eq hc, MemoryChunk.nextSink, hnext]

/-- The replacement of a chunk is concluded: the chunks that stand for the file have what was written. -/
theorem conclude (h : Twins twins t m) (hw : w ∈ twins) (sink : ByteSink) :
    ∃ m', ChunkStore.conclude w.chunk none (.ok (), sink, m) = (.ok (), m') ∧ m.Later m' ∧
      ∀ v ∈ twins, m'.content v.chunk = if v.loc = w.loc then sink.contents else m.content v.chunk := by
  obtain ⟨c, hc, -⟩ := h.chunk w hw
  have hscript := Memory.later_setChunk hc (c.later_noteSink sink)
  refine ⟨_, Memory.conclude_of_none hc rfl, hscript.trans (Memory.later_setContent _ _ _), fun v hv => ?_⟩
  rw [Memory.content_setContent (hscript.wellFormed h.wellFormed), hscript.sharesCell_eq,
    Memory.content_setChunk hc (c.later_noteSink sink).cell]
  by_cases hloc : v.loc = w.loc
  · rw [if_pos ((h.shares w hw v hv).2 hloc.symm), if_pos hloc]
  · rw [if_neg fun hshares => hloc ((h.shares w hw v hv).1 hshares).symm, if_neg hloc]

/-- **Both are opened for the merge**, and the readers are the same. -/
theorem openChunks {files : FileStore lib} (h : Twins twins files.tree m) (s : Sorter) {l : List Twin}
    (hl : ∀ w ∈ l, w ∈ twins) (index : Nat) :
    ∃ readers m', s.openChunks index files (l.map (·.path)) = (.ok readers, files) ∧
      s.openChunks index m (l.map (·.chunk)) = (.ok readers, m') ∧ Twins twins files.tree m' := by
  induction l generalizing m index with
  | nil => exact ⟨[], m, rfl, rfl, h⟩
  | cons w l ih =>
    obtain ⟨hfile, m₁, hmemory, htwins⟩ := h.openRead (hl w List.mem_cons_self)
    obtain ⟨readers, m', hfiles, hmemories, htwins'⟩ :=
      ih htwins (fun v hv => hl v (List.mem_cons_of_mem _ hv)) (index + 1)
    refine ⟨s.chunkSorter.reader { data := m.content w.chunk } :: readers, m', ?_, ?_, htwins'⟩
    · rw [List.map_cons, Sorter.openChunks_of_ok (congrArg Prod.fst hfile), hfile]
      dsimp only
      rw [hfiles]
      rfl
    · rw [List.map_cons, Sorter.openChunks_of_ok (congrArg Prod.fst hmemory), hmemory]
      dsimp only
      rw [hmemories]
      rfl

end Twins

/-! ## Workers -/

/-- **Two workers**, the one with a file and the other with the chunk that stands for it. -/
structure Pair where
  /-- The file and the chunk. -/
  twin : Twin
  /-- How far the sort of the file has come. -/
  filed : Progression Staging
  /-- How far the sort of the chunk has come. -/
  kept : MemoryProgression

/-- Where the **staging file** of a worker lies, if there is one. -/
def Pair.place? (p : Pair) : Option Location :=
  match p.filed with
  | .staged staging _ _ => some staging.file.place
  | .waiting | .loaded _ | .ended _ => none

/-- Two workers are **abreast**: they have come equally far, and the staging file is there if one is needed. -/
inductive Abreast (u : FileTree) (w : Twin) : Progression Staging → MemoryProgression → Prop
  /-- Neither has read. -/
  | waiting : Abreast u w .waiting .waiting
  /-- Both have the same records in order. -/
  | loaded (records : List Record) : Abreast u w (.loaded records) (.loaded records)
  /-- Both have staged a replacement and have written the same to its sink. -/
  | staged (staging : Staging) (sink : ByteSink) (count : Nat)
      (hstaged : u.Staged w.path staging.file TempFile.mode []) :
      Abreast u w (.staged staging (.ok (), sink) count) (.staged none (.ok (), sink) count)
  /-- Both have ended in the same way. -/
  | ended (outcome : Except StreamError Nat) : Abreast u w (.ended outcome) (.ended outcome)

/-- Workers stay abreast if the way to the staging file stays and the file does. -/
theorem Abreast.later {p : Pair} (h : Abreast u p.twin p.filed p.kept) (hshape : SameShape u' u)
    (hplace : ∀ loc ∈ p.place?, u'.lookup loc = u.lookup loc) : Abreast u' p.twin p.filed p.kept := by
  obtain ⟨twin, filed, kept⟩ := p
  cases h with
  | waiting => exact .waiting
  | loaded records => exact .loaded records
  | staged staging sink count hstaged =>
    exact .staged staging sink count
      (hstaged.transfer hshape ((hplace _ rfl).trans hstaged.present))
  | ended outcome => exact .ended outcome

/-- The staging file of a worker is there, where no path can spell it. -/
theorem Abreast.present {p : Pair} (h : Abreast u p.twin p.filed p.kept) {loc : Location}
    (hloc : p.place? = some loc) : u.lookup loc = some (.file TempFile.mode []) ∧ ¬ Spellable loc := by
  obtain ⟨twin, filed, kept⟩ := p
  cases h with
  | waiting => cases hloc
  | loaded _ => cases hloc
  | staged staging _ _ hstaged =>
    cases hloc
    exact ⟨hstaged.present, not_spellable_place staging.file⟩
  | ended _ => cases hloc

/-- Workers that are abreast have ended alike, if they have. -/
theorem Abreast.outcome? {p : Pair} (h : Abreast u p.twin p.filed p.kept) :
    p.filed.outcome? = p.kept.outcome? := by
  obtain ⟨twin, filed, kept⟩ := p
  cases h <;> rfl

/-- Where the files of workers lie. -/
def locations (pairs : List Pair) : List Location := pairs.map (·.twin.loc)

/-- Where the staging files of workers lie. -/
def places (pairs : List Pair) : List Location := pairs.filterMap Pair.place?

/-- There is no staging file before any step. -/
theorem places_waiting (twins : List Twin) : places (twins.map (⟨·, .waiting, .waiting⟩)) = [] := by
  unfold places
  rw [List.filterMap_map, List.filterMap_eq_nil_iff]
  intro w _
  rfl

/-- The staging files of a worker without one and of others are those of the others. -/
theorem places_cons_none {p : Pair} (h : p.place? = none) (others : List Pair) :
    places (p :: others) = places others :=
  List.filterMap_cons_none h

/-- **Sorts that are under way**, where `t` is the tree before them, and `u` and `m` are what they have come to:
the workers are abreast, their staging files lie apart from one another, and beside the files and the staging
files nothing has changed. -/
structure Underway (t : FileTree) (pairs : List Pair) (u : FileTree) (m : Memory) : Prop where
  /-- The files hold what the chunks hold. -/
  twins : Twins (pairs.map (·.twin)) u m
  /-- Only bytes of files have changed, as far as paths can tell. -/
  shape : SameShape u t
  /-- The workers are abreast. -/
  abreast : ∀ p ∈ pairs, Abreast u p.twin p.filed p.kept
  /-- Every worker has a staging file of its own. -/
  apart : (places pairs).Nodup
  /-- There was nothing where the staging files lie. -/
  free : ∀ loc ∈ places pairs, t.lookup loc = none
  /-- Nothing else has changed. -/
  beside : ∀ loc, loc ∉ locations pairs → loc ∉ places pairs → u.lookup loc = t.lookup loc

namespace Underway

variable {pairs pairs' others : List Pair} {filed : Progression Staging} {kept : MemoryProgression}

/-- Sorts are under way before any step. -/
theorem start (h : Twins twins t m) : Underway t (twins.map (⟨·, .waiting, .waiting⟩)) t m where
  twins := h.of_mem fun w hw => by simpa using hw
  shape := (AgreeOn.refl t).sameShape
  abreast p hp := by
    obtain ⟨w, -, rfl⟩ := List.mem_map.1 hp
    exact .waiting
  apart := by
    rw [places_waiting]
    exact .nil
  free loc hloc := by
    rw [places_waiting] at hloc
    cases hloc
  beside _ _ _ := rfl

/-- The order of the workers does not count. -/
theorem perm (h : Underway t pairs u m) (hperm : pairs'.Perm pairs) : Underway t pairs' u m where
  twins := h.twins.of_mem fun _ hw => (hperm.map _).subset hw
  shape := h.shape
  abreast p hp := h.abreast p (hperm.subset hp)
  apart := (hperm.filterMap _).nodup_iff.2 h.apart
  free loc hloc := h.free loc ((hperm.filterMap _).subset hloc)
  beside loc hloc hplaces := h.beside loc (fun hmem => hloc ((hperm.symm.map _).subset hmem))
    fun hmem => hplaces ((hperm.symm.filterMap _).subset hmem)

/-- The staging files are there, where no path can spell them. -/
theorem present (h : Underway t pairs u m) {loc : Location} (hloc : loc ∈ places pairs) :
    u.lookup loc = some (.file TempFile.mode []) ∧ ¬ Spellable loc := by
  obtain ⟨p, hp, hplace⟩ := List.mem_filterMap.1 hloc
  exact (h.abreast p hp).present hplace

/-- The first worker **comes on without a staging file**, and only scripts of chunks are used. -/
theorem comesOn (h : Underway t (⟨w, filed, kept⟩ :: others) u m) {filed' : Progression Staging}
    {kept' : MemoryProgression} (hplace : (⟨w, filed, kept⟩ : Pair).place? = none)
    (hplace' : (⟨w, filed', kept'⟩ : Pair).place? = none) (habreast : Abreast u w filed' kept')
    (htwins : Twins ((⟨w, filed, kept⟩ :: others).map (·.twin)) u m') :
    Underway t (⟨w, filed', kept'⟩ :: others) u m' := by
  have hplaces : places (⟨w, filed', kept'⟩ :: others) = places (⟨w, filed, kept⟩ :: others) := by
    rw [places_cons_none hplace, places_cons_none hplace']
  refine ⟨htwins, h.shape, fun p hp => ?_, hplaces ▸ h.apart, hplaces ▸ h.free,
    fun loc hloc hmem => h.beside loc hloc (hplaces ▸ hmem)⟩
  rcases List.mem_cons.1 hp with rfl | hp
  · exact habreast
  · exact h.abreast p (List.mem_cons_of_mem _ hp)

/-- **There is one staging file more**: it is new, and the first worker has it. -/
theorem addStaging {records : List Record} {staging : Staging} (sink : ByteSink) (count : Nat)
    (h : Underway t (⟨w, .loaded records, .loaded records⟩ :: others) u m)
    (hmade : TempFiles.Made u (Path.folderText w.path) staging.file u')
    (htwins : Twins (w :: others.map (·.twin)) u m') :
    Underway t (⟨w, .staged staging (.ok (), sink) count, .staged none (.ok (), sink) count⟩ :: others)
      u' m' := by
  have hnot := not_spellable_place staging.file
  have halike : Alike u' u := by
    rw [hmade.tree]
    exact alike_insert u hnot _
  have hnew {loc : Location} (hloc : loc ∈ places others) : loc ≠ staging.file.place := by
    rintro rfl
    cases hmade.free.symm.trans (h.present hloc).1
  refine ⟨?_, halike.sameShape.trans h.shape, fun p hp => ?_, ?_, fun loc hloc => ?_,
    fun loc hloc hmem => ?_⟩
  · refine htwins.later (.refl _) halike.sameShape fun v hv => ?_
    rw [halike.lookup _ (htwins.file v hv).spellable, (htwins.file v hv).file]
  · rcases List.mem_cons.1 hp with rfl | hp
    · exact .staged staging sink count (Staged.of_made hmade)
    · refine (h.abreast p (List.mem_cons_of_mem _ hp)).later halike.sameShape fun loc hloc => ?_
      rw [hmade.tree, lookup_insert_of_ne _ (hnew (List.mem_filterMap.2 ⟨p, hp, hloc⟩))]
  · exact List.nodup_cons.2 ⟨fun hmem => hnew hmem rfl, h.apart⟩
  -- what is not there now, and is neither a file nor a staging file, has not been there before
  · rcases List.mem_cons.1 hloc with rfl | hloc
    · rw [← h.beside _ (fun hmem => ?_) fun hmem => hnew hmem rfl, hmade.free]
      obtain ⟨p, hp, heq⟩ := List.mem_map.1 hmem
      exact hnot (heq ▸ (h.twins.file _ (List.mem_map_of_mem hp)).spellable)
    · exact h.free loc hloc
  · have hne : loc ≠ staging.file.place := fun heq => hmem (heq ▸ List.mem_cons_self)
    rw [hmade.tree, lookup_insert_of_ne _ hne]
    exact h.beside loc hloc fun hother => hmem (List.mem_cons_of_mem _ hother)

/-- **The staging file is gone** again, and the file of the first worker has what was written. -/
theorem dropStaging {staging : Staging} {sink : ByteSink} {count : Nat} (outcome : Except StreamError Nat)
    (h : Underway t (⟨w, .staged staging (.ok (), sink) count, .staged none (.ok (), sink) count⟩ :: others)
      u m)
    (hsame : Same u' ((u.erase staging.file.place).insert w.loc (.file w.mode sink.contents)))
    (hlater : m.Later m')
    (hcontent : ∀ v ∈ w :: others.map (·.twin),
      m'.content v.chunk = if v.loc = w.loc then sink.contents else m.content v.chunk) :
    Underway t (⟨w, .ended outcome, .ended outcome⟩ :: others) u' m' := by
  have htwins : Twins (w :: others.map (·.twin)) u m := h.twins
  have hfile := htwins.file w List.mem_cons_self
  have hnot := not_spellable_place staging.file
  have hshape := hfile.sameShape_of_replaced hsame hnot
  have hapart := List.nodup_cons.1 h.apart
  have hkept {loc : Location} (hmem : loc ∈ places others) : u'.lookup loc = u.lookup loc := by
    refine NamesFile.lookup_of_replaced hsame ?_ fun heq => hapart.1 (heq ▸ hmem)
    rintro rfl
    exact (h.present (List.mem_cons_of_mem _ hmem)).2 hfile.spellable
  refine ⟨?_, hshape.trans h.shape, fun p hp => ?_, hapart.2,
    fun loc hmem => h.free loc (List.mem_cons_of_mem _ hmem), fun loc hmem hplaces => ?_⟩
  · refine htwins.later hlater hshape fun v hv => ?_
    have hv' := htwins.file v hv
    rw [hcontent v hv]
    by_cases heq : v.loc = w.loc
    · rw [if_pos heq, heq, hfile.lookup_replaced hsame, htwins.mode_eq hv List.mem_cons_self heq]
    · have hplace : v.loc ≠ staging.file.place := fun heq => hnot (heq ▸ hv'.spellable)
      rw [if_neg heq, NamesFile.lookup_of_replaced hsame heq hplace, hv'.file]
  · rcases List.mem_cons.1 hp with rfl | hp
    · exact .ended outcome
    · exact (h.abreast p (List.mem_cons_of_mem _ hp)).later hshape fun loc hplace =>
        hkept (List.mem_filterMap.2 ⟨p, hp, hplace⟩)
  · have hne : loc ≠ w.loc := fun heq => hmem (heq ▸ List.mem_cons_self)
    by_cases hplace : loc = staging.file.place
    · rw [hplace, hsame.lookup _ trivial, lookup_insert_of_ne _ (hplace ▸ hne),
        lookup_erase_self _ (place_ne_nil _), h.free _ List.mem_cons_self]
    · rw [NamesFile.lookup_of_replaced hsame hne hplace]
      refine h.beside loc hmem fun hother => ?_
      rcases List.mem_cons.1 hother with heq | hother
      · exact hplace heq
      · exact hplaces hother

variable {files : FileStore lib}

/-- **A replacement is staged** on both sides. -/
theorem stage (hlib : lib.Reliable) {records : List Record}
    (h : Underway t (⟨w, .loaded records, .loaded records⟩ :: others) files.tree m)
    (hstage : Stageable t w) (s : Sorter) (cmp : Record → Record → Ordering) :
    let filed := s.stepWorker cmp files w.path (.loaded records)
    let kept := s.stepWorker cmp m w.chunk (.loaded records)
    Underway t (⟨w, filed.1, kept.1⟩ :: others) filed.2.tree kept.2 := by
  intro filed kept
  have hfile := h.twins.file w List.mem_cons_self
  have hok : (saveRecords s.delimiter records {}).1 = .ok () :=
    saveRecords_of_harmless harmless_nil fun _ => List.not_mem_nil
  rcases hsaved : saveRecords s.delimiter records {} with ⟨_ | _, sink⟩ <;> rw [hsaved] at hok
  · cases hok
  obtain ⟨m', hmemory, htwins⟩ := h.twins.stage List.mem_cons_self s.chunkSorter records
  have hkept : kept = (.staged none (.ok (), sink) records.length, m') := by
    show s.stepWorker cmp m w.chunk (.loaded records) = _
    rw [Sorter.stepWorker, hmemory, show s.chunkSorter.delimiter = s.delimiter from rfl, hsaved]
  have hstage' := hstage.later h.shape hfile.spellable
  obtain ⟨staging, files', hstaged, hmade⟩ := FileStore.stage_of_reliable hlib
    (hfile.mayStage hstage'.reachable hstage'.allowed hstage'.short)
  have hfiled : filed = (.staged staging (.ok (), sink) records.length, files') := by
    show s.stepWorker cmp files w.path (.loaded records) = _
    rw [Sorter.stepWorker, ChunkSorter.stage, show ChunkStore.stage files w.path = _ from hstaged]
    dsimp only
    rw [show s.chunkSorter.delimiter = s.delimiter from rfl, hsaved]
  rw [hfiled, hkept]
  exact h.addStaging sink records.length hmade htwins

/-- **The replacement is concluded** on both sides. -/
theorem conclude (hlib : lib.Reliable) {staging : Staging} {sink : ByteSink} {count : Nat}
    (h : Underway t (⟨w, .staged staging (.ok (), sink) count, .staged none (.ok (), sink) count⟩ :: others)
      files.tree m)
    (hstage : Stageable t w) (s : Sorter) (cmp : Record → Record → Ordering) :
    let filed := s.stepWorker cmp files w.path (.staged staging (.ok (), sink) count)
    let kept := s.stepWorker cmp m w.chunk (.staged none (.ok (), sink) count)
    Underway t (⟨w, filed.1, kept.1⟩ :: others) filed.2.tree kept.2 := by
  intro filed kept
  have hfile := h.twins.file w List.mem_cons_self
  obtain ⟨m', hmemory, hlater, hcontent⟩ := h.twins.conclude List.mem_cons_self sink
  have hkept : kept = (.ended (.ok count), m') := by
    show s.stepWorker cmp m w.chunk (.staged none (.ok (), sink) count) = _
    rw [Sorter.stepWorker, hmemory]
    rfl
  have hstaged : files.tree.Staged w.path staging.file TempFile.mode [] := by
    cases h.abreast _ List.mem_cons_self
    assumption
  obtain ⟨houtcome, hsame⟩ := FileStore.conclude_of_namesFile hlib hfile
    (hstage.later h.shape hfile.spellable).reachable hstaged sink
  rcases hconclude : ChunkStore.conclude w.path staging (.ok (), sink, files) with ⟨outcome, files'⟩
  rw [hconclude] at houtcome hsame
  obtain rfl : outcome = .ok () := houtcome
  have hfiled : filed = (.ended (.ok count), files') := by
    show s.stepWorker cmp files w.path (.staged staging (.ok (), sink) count) = _
    rw [Sorter.stepWorker, hconclude]
    rfl
  rw [hfiled, hkept]
  exact h.dropStaging (.ok count) hsame hlater hcontent

/-- **Every step of a worker keeps sorts under way.** -/
theorem step (hlib : lib.Reliable) (h : Underway t (⟨w, filed, kept⟩ :: others) files.tree m)
    (hstage : Stageable t w) (s : Sorter) (cmp : Record → Record → Ordering) :
    let filed' := s.stepWorker cmp files w.path filed
    let kept' := s.stepWorker cmp m w.chunk kept
    Underway t (⟨w, filed'.1, kept'.1⟩ :: others) filed'.2.tree kept'.2 := by
  cases h.abreast _ List.mem_cons_self with
  | waiting =>
    obtain ⟨outcome, m', hfile, hmemory, htwins⟩ := h.twins.load List.mem_cons_self s.chunkSorter
    unfold Sorter.stepWorker
    rw [hfile, hmemory]
    rcases outcome with e | records
    · exact h.comesOn rfl rfl (.ended _) htwins
    · exact h.comesOn rfl rfl (.loaded _) htwins
  | loaded records => exact h.stage hlib hstage s cmp
  | staged staging sink count hstaged => exact h.conclude hlib hstage s cmp
  | ended outcome => exact h

end Underway

/-! ## Workshops -/

/-- Two workshops **side by side**, one with files and one with chunks in memory: every worker has come as far
in the one as in the other. -/
def SideBySide (t : FileTree) (twins : List Twin) (files : Workshop (FileStore lib) String Staging)
    (memory : MemoryWorkshop) : Prop :=
  ∃ pairs : List Pair, pairs.map (·.twin) = twins ∧
    files.workers = pairs.map (fun p => (p.twin.path, p.filed)) ∧
    memory.workers = pairs.map (fun p => (p.twin.chunk, p.kept)) ∧
    Underway t pairs files.store.tree memory.store

namespace SideBySide

variable {files : Workshop (FileStore lib) String Staging} {memory : MemoryWorkshop}

/-- Workshops are side by side before any step. -/
theorem openWorkshop {store : FileStore lib} (h : Twins twins store.tree m) :
    SideBySide store.tree twins (Sorter.openWorkshop store (twins.map (·.path)))
      (Sorter.openWorkshop m (twins.map (·.chunk))) := by
  refine ⟨twins.map (⟨·, .waiting, .waiting⟩), ?_, ?_, ?_, .start h⟩ <;>
    simp [Sorter.openWorkshop, Function.comp_def]

/-- A pair that comes on may as well **stand before the others**. -/
theorem exists_perm {pairs : List Pair} {k : Nat} {p : Pair} (hk : pairs[k]? = some p) (p' : Pair) :
    ∃ others, (p :: others).Perm pairs ∧ (pairs.set k p').Perm (p' :: others) := by
  induction pairs generalizing k with
  | nil => cases hk
  | cons first rest ih =>
    cases k with
    | zero =>
      obtain rfl : first = p := by simpa using hk
      exact ⟨rest, .refl _, .refl _⟩
    | succ k =>
      obtain ⟨others, hbefore, hafter⟩ := ih (by simpa using hk)
      exact ⟨first :: others, (List.Perm.swap first p others).trans (hbefore.cons first),
        (hafter.cons first).trans (List.Perm.swap p' first others)⟩

/-- Workshops stay side by side in **every step**. -/
theorem advance (hlib : lib.Reliable) (h : SideBySide t twins files memory)
    (hstage : ∀ w ∈ twins, Stageable t w) (s : Sorter) (cmp : Record → Record → Ordering) (k : Nat) :
    SideBySide t twins (s.advance cmp files k) (s.advance cmp memory k) := by
  obtain ⟨pairs, rfl, hfiles, hmemory, hunderway⟩ := h
  rcases hk : pairs[k]? with _ | ⟨w, filed, kept⟩
  · have hfile : files.workers[k]? = none := by rw [hfiles, List.getElem?_map, hk]; rfl
    have hchunk : memory.workers[k]? = none := by rw [hmemory, List.getElem?_map, hk]; rfl
    rw [Sorter.advance_of_none hfile, Sorter.advance_of_none hchunk]
    exact ⟨pairs, rfl, hfiles, hmemory, hunderway⟩
  have hw : w ∈ pairs.map (·.twin) := List.mem_map_of_mem (List.mem_of_getElem? hk)
  have hfile : files.workers[k]? = some (w.path, filed) := by
    rw [hfiles, List.getElem?_map, hk]
    rfl
  have hchunk : memory.workers[k]? = some (w.chunk, kept) := by
    rw [hmemory, List.getElem?_map, hk]
    rfl
  rw [Sorter.advance_of_getElem? hfile, Sorter.advance_of_getElem? hchunk]
  obtain ⟨others, hbefore, hafter⟩ := exists_perm hk ⟨w, (s.stepWorker cmp files.store w.path filed).1,
    (s.stepWorker cmp memory.store w.chunk kept).1⟩
  refine ⟨_, ?_, ?_, ?_, ((hunderway.perm hbefore).step hlib (hstage w hw) s cmp).perm hafter⟩
  · exact map_set_eq_map hk rfl
  · rw [List.map_set, hfiles]
  · rw [List.map_set, hmemory]

/-- Workshops stay side by side in the steps of **every schedule**. -/
theorem runSchedule (hlib : lib.Reliable) (h : SideBySide t twins files memory)
    (hstage : ∀ w ∈ twins, Stageable t w) (s : Sorter) (cmp : Record → Record → Ordering)
    (schedule : List Nat) :
    SideBySide t twins (s.runSchedule cmp files schedule) (s.runSchedule cmp memory schedule) := by
  induction schedule generalizing files memory with
  | nil => exact h
  | cons k schedule ih => exact ih (h.advance hlib hstage s cmp k)

end SideBySide

end RecordSort
