import RecordSort.Chunk.Completed
import RecordSort.Chunk.Sorter
import RecordSort.Proofs.Record.Reading
import RecordSort.Proofs.Record.Writing

/-! # What a chunk sort changes in a memory

Opening a chunk and beginning to replace it use up the script of this chunk and change no content; a
replacement that is committed changes the contents of the chunks in its cell. From this follows what the
steps of a chunk sort do to a memory.

* **`Memory.WellFormed`** — every chunk has its content in a cell that exists.
* **`Memory.Later`** — a memory in which scripts have been used up in part.
* **`content_setChunk`**, **`content_setContent`** — which contents a change leaves alone.
* **`openRead_eq`** — what an opening answers.
* **`ChunkSorter.load_of_serve`**, **`load_of_harmless`**, **`load_of_refuse`** — the records of a chunk are
  loaded.
* **`ChunkSorter.stage_eq`** — a replacement is staged, and they are written to its sink.
* **`Memory.conclude_of_none`**, **`conclude_of_some`** — the replacement ends.
* **`ChunkSorter.save_of_none`**, **`save_of_some`** — both of these at once. -/

namespace RecordSort

namespace MemoryChunk

/-- How the next opening of the chunk goes. -/
def nextOpening (c : MemoryChunk) : Opening := c.openings.headD (.serve [])

/-- The plan of the next opening stands in the script, or is empty. -/
theorem mem_of_nextOpening {c : MemoryChunk} {plan : List Transfer}
    (h : c.nextOpening = .serve plan) : .serve plan ∈ c.openings ∨ plan = [] := by
  rw [nextOpening, List.headD_eq_head?_getD] at h
  cases hhead : c.openings.head? with
  | none =>
    rw [hhead, Option.getD_none, Opening.serve.injEq] at h
    exact Or.inr h.symm
  | some o =>
    rw [hhead, Option.getD_some] at h
    exact Or.inl (h ▸ List.mem_of_mem_head? hhead)

/-- How the next replacement of the chunk goes. -/
def nextReplacing (c : MemoryChunk) : Replacing := c.replacings.headD {}

/-- The sink of the next replacement. -/
def nextSink (c : MemoryChunk) : ByteSink :=
  { plan := c.nextReplacing.plan, flushPlan := c.nextReplacing.flushPlan }

/-- The error with which a replacement **ends**, if it does: one with which filling it failed, or that of the
commit. -/
def endError? (commitError : Option StreamError) : Except StreamError Unit → Option StreamError
  | .error e => some e
  | .ok () => commitError

/-- The error with which **saving records** to the chunk fails, if it does. -/
def saveError? (d : UInt8) (rs : List Record) (c : MemoryChunk) : Option StreamError :=
  endError? c.nextReplacing.commitError (saveRecords d rs c.nextSink).1

/-- A replacement ends well if it was filled and can be committed. -/
theorem endError?_eq_none_iff {commitError : Option StreamError} {outcome : Except StreamError Unit} :
    endError? commitError outcome = none ↔ outcome = .ok () ∧ commitError = none := by
  cases outcome <;> simp [endError?]

/-- **A sink to which all records have been written** holds them. -/
theorem contents_nextSink (c : MemoryChunk) {d : UInt8} {rs : List Record}
    (h : (saveRecords d rs c.nextSink).1 = .ok ()) :
    (saveRecords d rs c.nextSink).2.contents = encode d rs :=
  contents_of_saveRecords (Prod.ext h rfl)

/-- The chunk after an opening. -/
def noteOpening (c : MemoryChunk) : MemoryChunk :=
  { c with openings := c.openings.tail, opened := c.opened + 1 }

/-- The chunk after a replacement was begun. -/
def noteReplacing (c : MemoryChunk) : MemoryChunk :=
  { c with replacings := c.replacings.tail, replaced := c.replaced + 1 }

/-- The chunk after a replacement with this sink has ended. -/
def noteSink (sink : ByteSink) (c : MemoryChunk) : MemoryChunk :=
  { c with sinks := sink :: c.sinks }

/-- The chunk after records were to be saved to it. -/
def noteSaving (d : UInt8) (rs : List Record) (c : MemoryChunk) : MemoryChunk :=
  c.noteReplacing.noteSink (saveRecords d rs c.nextSink).2

/-- The same chunk with a script that **has been used up in part**. -/
structure Later (c c' : MemoryChunk) : Prop where
  /-- The chunk lies in the same cell. -/
  cell : c'.cell = c.cell
  /-- Some openings may be behind it. -/
  openings : c'.openings <:+ c.openings
  /-- Some replacements may be behind it. -/
  replacings : c'.replacings <:+ c.replacings

/-- Nothing need have been used up. -/
theorem Later.refl (c : MemoryChunk) : c.Later c := ⟨rfl, List.suffix_refl _, List.suffix_refl _⟩

/-- A script is used up part by part. -/
theorem Later.trans {c c' c'' : MemoryChunk} (h : c.Later c') (h' : c'.Later c'') : c.Later c'' :=
  ⟨h'.cell.trans h.cell, h'.openings.trans h.openings, h'.replacings.trans h.replacings⟩

/-- An opening uses up an entry of the script. -/
theorem later_noteOpening (c : MemoryChunk) : c.Later c.noteOpening :=
  ⟨rfl, List.tail_suffix _, List.suffix_refl _⟩

/-- So does a replacement, when it begins. -/
theorem later_noteReplacing (c : MemoryChunk) : c.Later c.noteReplacing :=
  ⟨rfl, List.suffix_refl _, List.tail_suffix _⟩

/-- The end of a replacement uses up nothing. -/
theorem later_noteSink (sink : ByteSink) (c : MemoryChunk) : c.Later (c.noteSink sink) :=
  ⟨rfl, List.suffix_refl _, List.suffix_refl _⟩

/-- Saving records uses up what a replacement does. -/
theorem later_noteSaving (d : UInt8) (rs : List Record) (c : MemoryChunk) :
    c.Later (c.noteSaving d rs) :=
  c.later_noteReplacing.trans (c.noteReplacing.later_noteSink _)

end MemoryChunk

namespace Memory

/-- Every chunk has its content **in a cell that exists**. -/
def WellFormed (m : Memory) : Prop := ∀ c ∈ m.chunks, c.cell < m.cells.length

/-- Another script and other counters for a chunk. -/
def setChunk (m : Memory) (i : Nat) (c : MemoryChunk) : Memory :=
  { m with chunks := m.chunks.set i c }

/-- The same memory after some scripts **have been used up in part** and some contents have changed. -/
structure Later (m m' : Memory) : Prop where
  /-- No cell has come or gone. -/
  cells : m'.cells.length = m.cells.length
  /-- No chunk has come or gone. -/
  length : m'.chunks.length = m.chunks.length
  /-- Every chunk is a later one. -/
  chunk : ∀ (i : Nat) (c' : MemoryChunk), m'.chunks[i]? = some c' →
    ∃ c, m.chunks[i]? = some c ∧ c.Later c'

/-- A memory without chunks is well formed. -/
theorem wellFormed_empty : WellFormed {} := fun c hc => by simp at hc

/-- A new chunk has its content in a new cell. -/
theorem WellFormed.add {m : Memory} (h : m.WellFormed) (data : Bytes) (openings : List Opening)
    (replacings : List Replacing) : (m.add data openings replacings).WellFormed := by
  intro c hc
  rw [Memory.add, List.mem_append, List.mem_singleton] at hc
  rw [Memory.add, List.length_append, List.length_singleton]
  rcases hc with hc | rfl
  · exact Nat.lt_succ_of_lt (h c hc)
  · exact Nat.lt_succ_self _

/-- A chunk that shares the content of another one has it in the cell of that one. -/
theorem WellFormed.share {m : Memory} (h : m.WellFormed) (i : Nat) (openings : List Opening)
    (replacings : List Replacing) : (m.share i openings replacings).WellFormed := by
  unfold Memory.share
  split
  · exact h
  · rename_i c₀ hget
    intro c hc
    rw [List.mem_append, List.mem_singleton] at hc
    rcases hc with hc | rfl
    · exact h c hc
    · exact h c₀ (List.mem_of_getElem? hget)

variable {m m' m'' : Memory} {i j : Nat} {c c' : MemoryChunk} {data : Bytes}

/-- Nothing need have happened. -/
theorem Later.refl (m : Memory) : m.Later m := ⟨rfl, rfl, fun _ c' h => ⟨c', h, .refl c'⟩⟩

/-- What has happened to a memory adds up. -/
theorem Later.trans (h : m.Later m') (h' : m'.Later m'') : m.Later m'' where
  cells := h'.cells.trans h.cells
  length := h'.length.trans h.length
  chunk i c'' hc'' := by
    obtain ⟨c', hc', hlater'⟩ := h'.chunk i c'' hc''
    obtain ⟨c, hc, hlater⟩ := h.chunk i c' hc'
    exact ⟨c, hc, hlater.trans hlater'⟩

/-- A chunk is still there later. -/
theorem Later.exists_chunk (h : m.Later m') (hc : m.chunks[i]? = some c) :
    ∃ c', m'.chunks[i]? = some c' ∧ c.Later c' := by
  have hlt : i < m'.chunks.length := h.length ▸ (List.getElem?_eq_some_iff.1 hc).1
  obtain ⟨c₀, hc₀, hlater⟩ := h.chunk i _ (List.getElem?_eq_getElem hlt)
  rw [hc, Option.some.injEq] at hc₀
  exact ⟨_, List.getElem?_eq_getElem hlt, hc₀ ▸ hlater⟩

/-- A memory stays well formed. -/
theorem Later.wellFormed (h : m.Later m') (hm : m.WellFormed) : m'.WellFormed := by
  intro c' hc'
  obtain ⟨i, hi⟩ := List.mem_iff_getElem?.1 hc'
  obtain ⟨c, hc, hlater⟩ := h.chunk i c' hi
  rw [hlater.cell, h.cells]
  exact hm c (List.mem_of_getElem? hc)

/-- Chunks share a cell if both exist and have the same one. -/
theorem sharesCell_iff :
    m.sharesCell i j = true ↔
      ∃ c d, m.chunks[i]? = some c ∧ m.chunks[j]? = some d ∧ c.cell = d.cell := by
  unfold sharesCell
  cases hi : m.chunks[i]? <;> cases hj : m.chunks[j]? <;> simp

/-- Which chunks share a cell does not change. -/
theorem Later.sharesCell_eq (h : m.Later m') (i j : Nat) : m'.sharesCell i j = m.sharesCell i j := by
  rw [Bool.eq_iff_iff, sharesCell_iff, sharesCell_iff]
  constructor
  · rintro ⟨c', d', hc', hd', hcell⟩
    obtain ⟨c, hc, hlater⟩ := h.chunk i c' hc'
    obtain ⟨d, hd, hlater'⟩ := h.chunk j d' hd'
    exact ⟨c, d, hc, hd, by rw [← hlater.cell, hcell, hlater'.cell]⟩
  · rintro ⟨c, d, hc, hd, hcell⟩
    obtain ⟨c', hc', hlater⟩ := h.exists_chunk hc
    obtain ⟨d', hd', hlater'⟩ := h.exists_chunk hd
    exact ⟨c', d', hc', hd', by rw [hlater.cell, hcell, hlater'.cell]⟩

/-- Chunks that share a cell have one content. -/
theorem content_of_sharesCell (h : m.sharesCell i j = true) : m.content i = m.content j := by
  obtain ⟨c, d, hc, hd, hcell⟩ := sharesCell_iff.1 h
  rw [content, content, hc, hd]
  dsimp only
  rw [hcell]

/-! ## Changes of scripts -/

/-- A script that is used up in part makes a later memory. -/
theorem later_setChunk (hc : m.chunks[i]? = some c) (hlater : c.Later c') :
    m.Later (m.setChunk i c') where
  cells := rfl
  length := List.length_set ..
  chunk j d hd := by
    rw [setChunk, List.getElem?_set] at hd
    split at hd
    · rename_i hij
      subst hij
      rw [if_pos (List.getElem?_eq_some_iff.1 hc).1, Option.some.injEq] at hd
      exact ⟨c, hc, hd ▸ hlater⟩
    · exact ⟨d, hd, .refl d⟩

/-- A chunk has the script that it is given. -/
theorem getElem?_setChunk_self (hc : m.chunks[i]? = some c) :
    (m.setChunk i c').chunks[i]? = some c' :=
  List.getElem?_set_self (List.getElem?_eq_some_iff.1 hc).1

/-- The other chunks keep theirs. -/
theorem getElem?_setChunk_ne (h : i ≠ j) : (m.setChunk i c').chunks[j]? = m.chunks[j]? :=
  List.getElem?_set_ne h

/-- **A change of a script changes no content.** -/
theorem content_setChunk (hc : m.chunks[i]? = some c) (hcell : c'.cell = c.cell) (j : Nat) :
    (m.setChunk i c').content j = m.content j := by
  by_cases hij : i = j
  · subst hij
    rw [content, content, getElem?_setChunk_self hc, hc]
    dsimp only
    rw [hcell]
    rfl
  · rw [content, content, getElem?_setChunk_ne hij]
    rfl

/-- The last script that a chunk is given counts. -/
@[simp] theorem setChunk_setChunk (m : Memory) (i : Nat) (c c' : MemoryChunk) :
    (m.setChunk i c).setChunk i c' = m.setChunk i c' := by
  rw [setChunk, setChunk, setChunk, List.set_set]

/-- The sink of a replacement is kept with its chunk. -/
theorem keepSink_eq (hc : m.chunks[i]? = some c) (sink : ByteSink) :
    m.keepSink i sink = m.setChunk i (c.noteSink sink) := by
  rw [keepSink, hc]
  rfl

/-- Keeping a sink makes a later memory. -/
theorem later_keepSink (m : Memory) (i : Nat) (sink : ByteSink) : m.Later (m.keepSink i sink) := by
  cases hc : m.chunks[i]? with
  | none => rw [keepSink, hc]; exact .refl m
  | some c => rw [keepSink_eq hc]; exact later_setChunk hc (c.later_noteSink sink)

/-- Keeping a sink changes no content. -/
@[simp] theorem content_keepSink (m : Memory) (i : Nat) (sink : ByteSink) (j : Nat) :
    (m.keepSink i sink).content j = m.content j := by
  cases hc : m.chunks[i]? with
  | none => rw [keepSink, hc]
  | some c => rw [keepSink_eq hc, content_setChunk hc (c.later_noteSink sink).cell]

/-- An opening **hands out the content**, by the plan that is next in the script, or is refused. -/
theorem openRead_eq (hc : m.chunks[i]? = some c) :
    m.openRead i =
      (match c.nextOpening with
        | .serve plan => .ok { data := m.content i, plan := plan }
        | .refuse e => .error e,
        m.setChunk i c.noteOpening) := by
  rw [openRead, hc, MemoryChunk.nextOpening, List.headD_eq_head?_getD]
  dsimp only
  rcases c.openings.head? with _ | ⟨plan | e⟩ <;> rfl

/-- An opening makes a later memory. -/
theorem later_openRead (m : Memory) (i : Nat) : m.Later (m.openRead i).2 := by
  cases hc : m.chunks[i]? with
  | none =>
    rw [openRead, hc]
    exact .refl m
  | some c =>
    rw [openRead_eq hc]
    exact later_setChunk hc c.later_noteOpening

/-! ## Changes of contents -/

/-- So does giving a chunk a content. -/
theorem later_setContent (m : Memory) (i : Nat) (data : Bytes) : m.Later (m.setContent i data) := by
  unfold setContent
  split
  · exact .refl m
  · exact ⟨List.length_set .., rfl, fun _ c' h => ⟨c', h, .refl c'⟩⟩

/-- Giving a chunk a content touches no script. -/
theorem chunks_setContent (m : Memory) (i : Nat) (data : Bytes) :
    (m.setContent i data).chunks = m.chunks := by
  unfold setContent
  split <;> rfl

/-- **Giving a chunk a content** gives it to all chunks in its cell, and to no other one. -/
theorem content_setContent (hm : m.WellFormed) (i j : Nat) (data : Bytes) :
    (m.setContent i data).content j = if m.sharesCell i j then data else m.content j := by
  rw [content, chunks_setContent, content]
  cases hj : m.chunks[j]? with
  | none =>
    have hnot : ¬ m.sharesCell i j = true := by
      rw [sharesCell_iff]
      rintro ⟨c, d, -, hd, -⟩
      rw [hj] at hd
      contradiction
    rw [if_neg hnot]
  | some d =>
    have hd : d.cell < m.cells.length := hm d (List.mem_of_getElem? hj)
    unfold setContent
    cases hi : m.chunks[i]? with
    | none =>
      have hnot : ¬ m.sharesCell i j = true := by
        rw [sharesCell_iff]
        rintro ⟨c, d, hc, -, -⟩
        rw [hi] at hc
        contradiction
      rw [if_neg hnot]
    | some c =>
      have hiff : m.sharesCell i j = true ↔ c.cell = d.cell := by
        rw [sharesCell_iff]
        constructor
        · rintro ⟨c', d', hc', hd', hcell⟩
          rw [hi, Option.some.injEq] at hc'
          rw [hj, Option.some.injEq] at hd'
          rw [hc', hd', hcell]
        · exact fun hcell => ⟨c, d, hi, hj, hcell⟩
      dsimp only
      by_cases hcell : c.cell = d.cell
      · rw [if_pos (hiff.2 hcell), hcell, List.getD_eq_getElem?_getD, List.getElem?_set_self hd]
        rfl
      · rw [if_neg fun h => hcell (hiff.1 h), List.getD_eq_getElem?_getD,
          List.getElem?_set_ne hcell, List.getD_eq_getElem?_getD]

/-! ## The end of a replacement -/

variable {commitError : Option StreamError} {outcome : Except StreamError Unit} {sink : ByteSink}

/-- **A replacement that ends well** gives the chunk what the sink has taken up. -/
theorem conclude_of_none (hc : m.chunks[i]? = some c)
    (h : MemoryChunk.endError? commitError outcome = none) :
    ChunkStore.conclude i commitError (outcome, sink, m) =
      (.ok (), (m.setChunk i (c.noteSink sink)).setContent i sink.contents) := by
  cases outcome with
  | error e => contradiction
  | ok =>
    obtain rfl : commitError = none := h
    rw [← keepSink_eq hc]
    rfl

/-- **A replacement that fails** changes no content. Its sink is kept all the same. -/
theorem conclude_of_some (hc : m.chunks[i]? = some c) {e : StreamError}
    (h : MemoryChunk.endError? commitError outcome = some e) :
    ChunkStore.conclude i commitError (outcome, sink, m) =
      (.error e, m.setChunk i (c.noteSink sink)) := by
  rw [← keepSink_eq hc]
  cases outcome with
  | error e' =>
    obtain rfl := Option.some.inj h
    rfl
  | ok =>
    obtain rfl : commitError = some e := h
    rfl

end Memory

/-! ## The steps of a chunk sort -/

namespace ChunkSorter

variable {s : ChunkSorter} {m : Memory} {i : Nat} {c : MemoryChunk}

/-- **The first step**, if the chunk can be opened: its content is read by the plan of the opening. -/
theorem load_of_serve (hc : m.chunks[i]? = some c) {plan : List Transfer}
    (h : c.nextOpening = .serve plan) :
    s.load m i =
      ((drain (s.reader { data := m.content i, plan := plan })).outcome.map fun _ =>
        (drain (s.reader { data := m.content i, plan := plan })).records,
        m.setChunk i c.noteOpening) := by
  have hopen : ChunkStore.openRead m i = (_, _) := Memory.openRead_eq hc
  rw [load, hopen, h]

/-- A reader of a chunk has not read yet. -/
theorem fresh_reader (s : ChunkSorter) (source : ByteSource) : (s.reader source).Fresh :=
  ⟨rfl, rfl, rfl⟩

/-- The first step, if the plan is harmless: all records of the content are loaded. -/
theorem load_of_harmless (hc : m.chunks[i]? = some c) {plan : List Transfer}
    (h : c.nextOpening = .serve plan) (hplan : Harmless plan) :
    s.load m i = (.ok (decode s.delimiter (m.content i)), m.setChunk i c.noteOpening) := by
  obtain ⟨hrecords, hok⟩ :=
    (s.fresh_reader { data := m.content i, plan := plan }).drain_of_harmless hplan
  rw [load_of_serve hc h, hok, hrecords]
  rfl

/-- The first step, if the chunk cannot be opened. -/
theorem load_of_refuse (hc : m.chunks[i]? = some c) {e : StreamError}
    (h : c.nextOpening = .refuse e) : s.load m i = (.error e, m.setChunk i c.noteOpening) := by
  have hopen : ChunkStore.openRead m i = (_, _) := Memory.openRead_eq hc
  rw [load, hopen, h]

variable {rs : List Record}

/-- **The second step**: a replacement is staged, and the records are written to its sink. -/
theorem stage_eq (hc : m.chunks[i]? = some c) :
    s.stage m i rs =
      (.ok (c.nextReplacing.commitError, saveRecords s.delimiter rs c.nextSink),
        m.setChunk i c.noteReplacing) := by
  have hstage : ChunkStore.stage m i =
      (.ok (c.nextReplacing.commitError, c.nextSink), m.setChunk i c.noteReplacing) := by
    show m.stage i = _
    rw [Memory.stage, hc]
    rfl
  rw [stage, hstage]

/-- **Saving records**, if it succeeds: they are the content of all chunks in the cell of the chunk. -/
theorem save_of_none (hc : m.chunks[i]? = some c) (h : c.saveError? s.delimiter rs = none) :
    s.save m i rs =
      (.ok rs.length,
        (m.setChunk i (c.noteSaving s.delimiter rs)).setContent i (encode s.delimiter rs)) := by
  rw [save_eq_stage, stage_eq hc]
  dsimp only
  rw [Memory.conclude_of_none (Memory.getElem?_setChunk_self hc) h, Memory.setChunk_setChunk,
    c.contents_nextSink (MemoryChunk.endError?_eq_none_iff.1 h).1]
  rfl

/-- Saving records, if it fails: no content changes. -/
theorem save_of_some (hc : m.chunks[i]? = some c) {e : StreamError}
    (h : c.saveError? s.delimiter rs = some e) :
    s.save m i rs = (.error e, m.setChunk i (c.noteSaving s.delimiter rs)) := by
  rw [save_eq_stage, stage_eq hc]
  dsimp only
  rw [Memory.conclude_of_some (Memory.getElem?_setChunk_self hc) h, Memory.setChunk_setChunk]
  rfl

end ChunkSorter

end RecordSort
