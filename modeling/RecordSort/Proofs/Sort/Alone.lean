import RecordSort.Proofs.Chunk.MemoryFrames
import RecordSort.Proofs.Sort.Progress

/-! # Chunks that share nothing

A step of a worker looks at nothing but the script and the content of its chunk, and changes nothing else
if no other chunk shares its cell. So where the chunks of a sort share nothing, every worker does what it
would do if it were alone, whatever the schedule says.

* **`Memory.AgreesAt`** — two memories in which one chunk is the same.
* **`Memory.Changes`** — what a change of one chunk comes to.
* **`exists_changes_stepWorker`** — a step depends on its chunk alone.
* **`Sorter.solo`** — the steps of one worker on a memory of its own.
* **`RunsAlone`** — every worker is as far as it would be alone; `agreesAt_atEnd` says how it ends. -/

namespace RecordSort

namespace Memory

/-- Chunk `i` **is the same** in two memories: its script, its counters and its content. -/
structure AgreesAt (m m' : Memory) (i : Nat) : Prop where
  chunk : m'.chunks[i]? = m.chunks[i]?
  content : m'.content i = m.content i

variable {m m' m'' : Memory} {i j : Nat} {c c' : MemoryChunk} {data : Bytes}

/-- A memory agrees with itself. -/
theorem AgreesAt.refl (m : Memory) (i : Nat) : m.AgreesAt m i := ⟨rfl, rfl⟩

/-- Agreement is passed on. -/
theorem AgreesAt.trans (h : m.AgreesAt m' i) (h' : m'.AgreesAt m'' i) : m.AgreesAt m'' i :=
  ⟨h'.chunk.trans h.chunk, h'.content.trans h.content⟩

/-- **A change of chunk `i` alone**, which then has the script `c'` and the content `data`: chunks that do
not share its cell stay as they are. -/
structure Changes (i : Nat) (c' : MemoryChunk) (data : Bytes) (m m' : Memory) : Prop where
  later : m.Later m'
  chunk : m'.chunks[i]? = some c'
  content : m'.content i = data
  others : ∀ j, m.sharesCell i j = false → m.AgreesAt m' j

/-- Memories in which a chunk has changed alike agree on it. -/
theorem Changes.agreesAt {m₁ m₁' : Memory} (h : Changes i c' data m m')
    (h₁ : Changes i c' data m₁ m₁') : m'.AgreesAt m₁' i :=
  ⟨h₁.chunk.trans h.chunk.symm, h₁.content.trans h.content.symm⟩

/-- A memory in which nothing has changed. -/
theorem changes_refl (hc : m.chunks[i]? = some c) : Changes i c (m.content i) m m :=
  ⟨.refl m, hc, rfl, fun j _ => .refl m j⟩

/-- A chunk shares its cell with itself. -/
theorem sharesCell_self (hc : m.chunks[i]? = some c) : m.sharesCell i i = true :=
  sharesCell_iff.2 ⟨c, c, hc, hc, rfl⟩

/-- Sharing goes both ways. -/
theorem sharesCell_comm (m : Memory) (i j : Nat) : m.sharesCell i j = m.sharesCell j i := by
  rw [Bool.eq_iff_iff, sharesCell_iff, sharesCell_iff]
  constructor
  · rintro ⟨c, d, hc, hd, hcell⟩
    exact ⟨d, c, hd, hc, hcell.symm⟩
  · rintro ⟨c, d, hc, hd, hcell⟩
    exact ⟨d, c, hd, hc, hcell.symm⟩

/-- A chunk that shares no cell with `i` is another one. -/
theorem ne_of_sharesCell_eq_false (hc : m.chunks[i]? = some c) (h : m.sharesCell i j = false) :
    i ≠ j := by
  rintro rfl
  rw [sharesCell_self hc] at h
  contradiction

/-- A chunk changes if its script is used up in part. -/
theorem changes_setChunk (hc : m.chunks[i]? = some c) (hlater : c.Later c') :
    Changes i c' (m.content i) m (m.setChunk i c') where
  later := later_setChunk hc hlater
  chunk := getElem?_setChunk_self hc
  content := content_setChunk hc hlater.cell i
  others j hj :=
    ⟨getElem?_setChunk_ne (ne_of_sharesCell_eq_false hc hj), content_setChunk hc hlater.cell j⟩

/-- A chunk changes if it is given a content. -/
theorem Changes.setContent (h : Changes i c' data m m') (hm : m.WellFormed) (data' : Bytes) :
    Changes i c' data' m (m'.setContent i data') := by
  have hm' := h.later.wellFormed hm
  refine ⟨h.later.trans (later_setContent _ _ _), ?_, ?_, ?_⟩
  · rw [chunks_setContent]
    exact h.chunk
  · rw [content_setContent hm', if_pos (sharesCell_self h.chunk)]
  · intro j hj
    have hagrees := h.others j hj
    rw [← h.later.sharesCell_eq] at hj
    constructor
    · rw [chunks_setContent]
      exact hagrees.chunk
    · rw [content_setContent hm', hj]
      exact hagrees.content

end Memory

open Memory (Changes)

namespace Sorter

variable {s : Sorter} {cmp : Record → Record → Ordering} {m : Memory} {chunks : List Nat}

/-! ## One worker -/

/-- **A step depends on its chunk alone**: what it comes to, and what becomes of the chunk, follow from the
script and the content of the chunk. -/
theorem exists_changes_stepWorker (i : Nat) (c : MemoryChunk) (data : Bytes)
    (progress : MemoryProgression) :
    ∃ progress' c' data', ∀ m : Memory, m.WellFormed → m.chunks[i]? = some c →
      m.content i = data → (s.stepWorker cmp m i progress).1 = progress' ∧
        Changes i c' data' m (s.stepWorker cmp m i progress).2 := by
  cases progress with
  | waiting =>
    cases hopening : c.nextOpening with
    | refuse e =>
      refine ⟨.ended (.error e), c.noteOpening, data, ?_⟩
      intro m hm hc hdata
      rw [stepWorker, ChunkSorter.load_of_refuse hc hopening]
      exact ⟨rfl, hdata ▸ Memory.changes_setChunk hc c.later_noteOpening⟩
    | serve plan =>
      cases houtcome : (drain (s.chunkSorter.reader { data := data, plan := plan })).outcome with
      | error e =>
        refine ⟨.ended (.error e), c.noteOpening, data, ?_⟩
        intro m hm hc hdata
        rw [stepWorker, ChunkSorter.load_of_serve hc hopening, hdata, houtcome]
        exact ⟨rfl, hdata ▸ Memory.changes_setChunk hc c.later_noteOpening⟩
      | ok =>
        refine ⟨.loaded (s.arrange cmp
          (drain (s.chunkSorter.reader { data := data, plan := plan })).records), c.noteOpening,
          data, ?_⟩
        intro m hm hc hdata
        rw [stepWorker, ChunkSorter.load_of_serve hc hopening, hdata, houtcome]
        exact ⟨rfl, hdata ▸ Memory.changes_setChunk hc c.later_noteOpening⟩
  | loaded rs =>
    refine ⟨.staged c.nextReplacing.commitError (saveRecords s.delimiter rs c.nextSink) rs.length,
      c.noteReplacing, data, ?_⟩
    intro m hm hc hdata
    rw [stepWorker, ChunkSorter.stage_eq hc]
    exact ⟨rfl, hdata ▸ Memory.changes_setChunk hc c.later_noteReplacing⟩
  | staged commitError filled count =>
    have hlater := c.later_noteSink filled.2
    cases hend : MemoryChunk.endError? commitError filled.1 with
    | some e =>
      refine ⟨.ended (.error e), c.noteSink filled.2, data, ?_⟩
      intro m hm hc hdata
      rw [stepWorker, Memory.conclude_of_some hc hend]
      exact ⟨rfl, hdata ▸ Memory.changes_setChunk hc hlater⟩
    | none =>
      refine ⟨.ended (.ok count), c.noteSink filled.2, filled.2.contents, ?_⟩
      intro m hm hc hdata
      rw [stepWorker, Memory.conclude_of_none hc hend]
      exact ⟨rfl, (Memory.changes_setChunk hc hlater).setContent hm _⟩
  | ended outcome =>
    refine ⟨.ended outcome, c, data, ?_⟩
    intro m hm hc hdata
    exact ⟨rfl, hdata ▸ Memory.changes_refl hc⟩

/-- **How far a worker comes alone**, and what it leaves of the memory `m`, in `t` steps. -/
def solo (s : Sorter) (cmp : Record → Record → Ordering) (m : Memory) (i : Nat) :
    Nat → MemoryProgression × Memory
  | 0 => (.waiting, m)
  | t + 1 => s.stepWorker cmp (s.solo cmp m i t).2 i (s.solo cmp m i t).1

/-- A worker alone uses up scripts. -/
theorem later_solo (hm : m.WellFormed) {i : Nat} {c : MemoryChunk} (hc : m.chunks[i]? = some c)
    (t : Nat) : m.Later (s.solo cmp m i t).2 := by
  induction t with
  | zero => exact .refl m
  | succ t ih =>
    obtain ⟨c', hc', -⟩ := ih.exists_chunk hc
    obtain ⟨progress', c'', data', hlocal⟩ :=
      @exists_changes_stepWorker s cmp i c' _ (s.solo cmp m i t).1
    exact ih.trans (hlocal _ (ih.wellFormed hm) hc' rfl).2.later

/-- A worker that has ended alone has come to what the sort of its chunk comes to. -/
theorem solo_of_ended {i t : Nat} {outcome : Except StreamError Nat}
    (h : (s.solo cmp m i t).1 = .ended outcome) :
    s.solo cmp m i t =
      (.ended (s.chunkSorter.sortBy cmp m i).1, (s.chunkSorter.sortBy cmp m i).2) := by
  have hthree : s.solo cmp m i 3 =
      (.ended (s.chunkSorter.sortBy cmp m i).1, (s.chunkSorter.sortBy cmp m i).2) :=
    s.stepWorker_three cmp m i
  -- a worker that has ended takes no step
  have hstay : ∀ t n o, (s.solo cmp m i t).1 = .ended o →
      s.solo cmp m i (t + n) = s.solo cmp m i t := by
    intro t n o ho
    induction n with
    | zero => rfl
    | succ n ih => rw [← Nat.add_assoc, solo, ih, ho, stepWorker, ← ho]
  rcases Nat.le_total t 3 with hle | hle
  · rw [← hthree, ← Nat.add_sub_of_le hle, hstay t (3 - t) outcome h]
  · rw [← Nat.add_sub_of_le hle, hstay 3 (t - 3) _ (congrArg Prod.fst hthree), hthree]

/-! ## Many workers -/

/-- **Every worker is as far as it would be alone**, and its chunk is as the worker alone would leave it. -/
structure RunsAlone (s : Sorter) (cmp : Record → Record → Ordering) (m : Memory) (chunks : List Nat)
    (w : MemoryWorkshop) : Prop where
  later : m.Later w.store
  chunks_eq : w.workers.map (·.1) = chunks
  alone : ∀ (k i : Nat) (progress : MemoryProgression), w.workers[k]? = some (i, progress) →
    ∃ t, progress = (s.solo cmp m i t).1 ∧ (s.solo cmp m i t).2.AgreesAt w.store i

/-- The chunks of a list exist and **share nothing**. -/
structure Apart (m : Memory) (chunks : List Nat) : Prop where
  wellFormed : m.WellFormed
  chunk : ∀ i ∈ chunks, ∃ c, m.chunks[i]? = some c
  apart : chunks.Pairwise fun i j => m.sharesCell i j = false

/-- Two places of the list name chunks that share no cell. -/
theorem Apart.sharesCell_eq_false (h : Apart m chunks) {k l i j : Nat} (hkl : k ≠ l)
    (hk : chunks[k]? = some i) (hl : chunks[l]? = some j) : m.sharesCell i j = false := by
  obtain ⟨hklt, rfl⟩ := List.getElem?_eq_some_iff.1 hk
  obtain ⟨hllt, rfl⟩ := List.getElem?_eq_some_iff.1 hl
  have hapart := List.pairwise_iff_getElem.1 h.apart
  rcases Nat.lt_or_gt_of_ne hkl with hlt | hgt
  · exact hapart k l hklt hllt hlt
  · rw [Memory.sharesCell_comm]
    exact hapart l k hllt hklt hgt

/-- **A step of one worker** brings it on as it would alone, and leaves the chunks of the others. -/
theorem RunsAlone.step (hm : Apart m chunks) {w : MemoryWorkshop}
    (h : RunsAlone s cmp m chunks w) {k i : Nat} {progress : MemoryProgression}
    (hk : w.workers[k]? = some (i, progress)) :
    RunsAlone s cmp m chunks
      ⟨(s.stepWorker cmp w.store i progress).2,
        w.workers.set k (i, (s.stepWorker cmp w.store i progress).1)⟩ := by
  have hplace : ∀ (l j : Nat) (q : MemoryProgression), w.workers[l]? = some (j, q) → chunks[l]? = some j := by
    intro l j q hl
    rw [← h.chunks_eq, List.getElem?_map, hl]
    rfl
  have hlength : k < w.workers.length := (List.getElem?_eq_some_iff.1 hk).1
  have hstore := h.later.wellFormed hm.wellFormed
  obtain ⟨c₀, hc₀⟩ := hm.chunk i (List.mem_of_getElem? (hplace k i progress hk))
  obtain ⟨c, hc, -⟩ := h.later.exists_chunk hc₀
  obtain ⟨t, rfl, hagrees⟩ := h.alone k i progress hk
  obtain ⟨progress', c', data', hlocal⟩ :=
    @exists_changes_stepWorker s cmp i c (w.store.content i) (s.solo cmp m i t).1
  have hsolo : (s.solo cmp m i t).2.WellFormed :=
    (later_solo hm.wellFormed hc₀ t).wellFormed hm.wellFormed
  obtain ⟨hprogress, hchanges⟩ := hlocal w.store hstore hc rfl
  obtain ⟨hprogress', hchanges'⟩ := hlocal _ hsolo (hagrees.chunk.symm.trans hc) hagrees.content.symm
  refine ⟨h.later.trans hchanges.later, ?_, ?_⟩
  · rw [← h.chunks_eq]
    exact map_set_eq_map hk rfl
  · intro l j q hl
    by_cases hkl : k = l
    -- the worker itself: both steps change its chunk alike
    · subst hkl
      rw [List.getElem?_set_self hlength, Option.some.injEq, Prod.mk.injEq] at hl
      obtain ⟨rfl, rfl⟩ := hl
      exact ⟨t + 1, hprogress.trans hprogress'.symm, hchanges'.agreesAt hchanges⟩
    -- another worker: its chunk stays as it is
    · rw [List.getElem?_set_ne hkl] at hl
      obtain ⟨t', hq, hother⟩ := h.alone l j q hl
      have hapart := hm.sharesCell_eq_false hkl (hplace k _ _ hk) (hplace l j q hl)
      rw [← h.later.sharesCell_eq] at hapart
      exact ⟨t', hq, hother.trans (hchanges.others j hapart)⟩

/-- After every schedule every worker is as far as it would be alone. -/
theorem runsAlone_runSchedule (hm : Apart m chunks) (schedule : List Nat) :
    RunsAlone s cmp m chunks (s.runSchedule cmp (openWorkshop m chunks) schedule) := by
  refine runSchedule_induction ?_ ?_ schedule
  · intro w k i progress hk h
    exact h.step hm hk
  · refine ⟨.refl m, ?_, ?_⟩
    · simp [openWorkshop, Function.comp_def]
    · intro k i progress hk
      rw [openWorkshop, List.getElem?_map] at hk
      cases hi : chunks[k]? with
      | none => rw [hi] at hk; contradiction
      | some j =>
        rw [hi, Option.map_some, Option.some.injEq, Prod.mk.injEq] at hk
        obtain ⟨rfl, rfl⟩ := hk
        exact ⟨0, rfl, .refl m j⟩

/-- **At the end every chunk is as its own sort leaves it**, and the outcome of its worker is that of its
own sort. -/
theorem agreesAt_atEnd (hm : Apart m chunks) (schedule : List Nat) {k i : Nat}
    (hk : chunks[k]? = some i) :
    (s.atEnd cmp schedule m chunks).workers[k]? =
        some (i, .ended (s.chunkSorter.sortBy cmp m i).1) ∧
      (s.chunkSorter.sortBy cmp m i).2.AgreesAt (s.atEnd cmp schedule m chunks).store i := by
  have hruns : RunsAlone s cmp m chunks (s.atEnd cmp schedule m chunks) :=
    runsAlone_runSchedule hm _
  obtain ⟨outcome, houtcome⟩ := s.ended_atEnd cmp schedule m hk
  obtain ⟨t, ht, hagrees⟩ := hruns.alone k i _ houtcome
  have hsolo := solo_of_ended ht.symm
  rw [hsolo] at ht hagrees
  refine ⟨?_, hagrees⟩
  rw [houtcome, show Progression.ended outcome = _ from ht]

end Sorter

end RecordSort
