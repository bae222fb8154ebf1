import Mathlib.Data.List.Induction
import RecordSort.Proofs.Chunk.Filling
import RecordSort.Proofs.Chunk.MemoryFrames

/-! # The last completed replacement counts

In a memory whose replacements have no script, nothing stands between a program that fills a replacement
and its completion. However deep replacements are nested, and also where they are nested in a replacement
of the same cell, a chunk holds at any time what the replacement of its cell that was completed last has
staged. What is staged lies nowhere else, so that a replacement that is given up leaves no trace.

* **`Memory.contentAfter_eq_getLast?`** — a content told by the last completed replacement.
* **`Fill.targets`** — the chunks that a program replaces.
* **`Memory.Reached`** — a memory in which certain replacements have been completed; `Reached.stage` and
  `Reached.conclude` say what the steps of a replacement make of it.
* **`Reached.replaceBy`**, **`Reached.run`** — whole replacements and whole programs.
* **`Memory.Passes`**, **`Reached.passes`** — every point on the way.
* **`replaceBy_lastCompleted`** — any replacement. -/

namespace RecordSort

/-- The chunks that a program **replaces**, and those that nested programs replace. -/
def Fill.targets {Chunk Act : Type} : Fill Chunk Act → List Chunk
  | .done | .fail _ => []
  | .write _ rest | .flush rest | .act _ rest => rest.targets
  | .replace chunk inner rest => chunk :: (inner.targets ++ rest.targets)

/-- What holds of all targets holds of the target of a nested replacement, of those in its program and of those
behind it. -/
theorem Fill.forall_targets_replace {Chunk Act : Type} {P : Chunk → Prop} {chunk : Chunk}
    {inner rest : Fill Chunk Act} :
    (∀ i ∈ (replace chunk inner rest).targets, P i) ↔
      P chunk ∧ (∀ i ∈ inner.targets, P i) ∧ ∀ i ∈ rest.targets, P i := by
  rw [targets, List.forall_mem_cons, List.forall_mem_append]

namespace Memory

/-- **Replacements have no script**: sinks take up all that they are offered, and commits succeed. -/
def Plain (m : Memory) : Prop := ∀ c ∈ m.chunks, c.replacings = []

variable {m store store' : Memory} {before done : List (Completed Nat)} {i : Nat}

/-- A plain memory stays plain. -/
theorem Later.plain (h : m.Later store) (hm : m.Plain) : store.Plain := by
  intro c' hc'
  obtain ⟨i, hi⟩ := List.mem_iff_getElem?.1 hc'
  obtain ⟨c, hc, hlater⟩ := h.chunk i c' hi
  have hscript := hlater.replacings
  rwa [hm c (List.mem_of_getElem? hc), List.suffix_nil] at hscript

/-- **A content is that of the last completed replacement** of its cell, or the original one. -/
theorem contentAfter_eq_getLast? (m : Memory) (chunk : Nat) (done : List (Completed Nat)) :
    m.contentAfter chunk done =
      ((done.filter fun r => m.sharesCell r.chunk chunk).getLast?.map Completed.content).getD
        (m.content chunk) := by
  induction done using List.reverseRecOn with
  | nil => rfl
  | append_singleton done r ih =>
    rw [contentAfter_concat, List.filter_append, ih]
    cases hshares : m.sharesCell r.chunk chunk <;> simp [hshares]

/-- A memory that is reached from `m` **once the replacements `before` are completed**. -/
structure Reached (m : Memory) (before : List (Completed Nat)) (store : Memory) : Prop where
  later : m.Later store
  content : ∀ chunk, store.content chunk = m.contentAfter chunk before

/-- Without a completed replacement every content is the one before. -/
theorem Reached.refl (m : Memory) : m.Reached [] m := ⟨.refl m, fun _ => rfl⟩

/-! ## The steps of a replacement -/

/-- **A replacement is begun**: the sink is a new one, and no content changes. -/
theorem Reached.stage (h : m.Reached before store) (hplain : m.Plain) (hi : i < m.chunks.length) :
    ∃ store', ChunkStore.stage store i = (.ok (none, {}), store') ∧ m.Reached before store' := by
  have hlt : i < store.chunks.length := h.later.length ▸ hi
  obtain ⟨c, hc⟩ : ∃ c, store.chunks[i]? = some c := ⟨_, List.getElem?_eq_getElem hlt⟩
  have hscript : c.replacings = [] := h.later.plain hplain c (List.mem_of_getElem? hc)
  refine ⟨store.setChunk i c.noteReplacing, ?_, h.later.trans (later_setChunk hc c.later_noteReplacing),
    fun chunk => ?_⟩
  · show store.stage i = _
    rw [Memory.stage, hc]
    dsimp only
    rw [hscript]
    simp [setChunk, MemoryChunk.noteReplacing, hscript]
  · rw [content_setChunk hc c.later_noteReplacing.cell, h.content]

/-- A replacement that has been begun has a new sink, and no content has changed. -/
theorem Reached.of_stage (h : m.Reached before store) (hplain : m.Plain) (hi : i < m.chunks.length)
    {commitError : Option StreamError} {sink : ByteSink}
    (hstage : ChunkStore.stage store i = (.ok (commitError, sink), store')) :
    sink = {} ∧ m.Reached before store' := by
  obtain ⟨begun, hbegun, hreached⟩ := h.stage hplain hi
  obtain ⟨hok, rfl⟩ := Prod.mk.inj (hstage.symm.trans hbegun)
  exact ⟨(Prod.mk.inj (Except.ok.inj hok)).2, hreached⟩

/-- **A replacement is concluded**: it is completed if the program that fills it ends well, and if not, no
content changes. -/
theorem Reached.conclude (h : m.Reached before store) (hm : m.WellFormed) (chunk : Nat)
    {fill : Fill Nat Act} {sink : ByteSink} (hsink : sink.contents = fill.written) :
    ∃ store', ChunkStore.conclude chunk none (fill.ending, sink, store) = (fill.ending, store') ∧
      m.Reached (before ++ Fill.completion chunk fill) store' := by
  have hkept : m.Later (store.keepSink chunk sink) := h.later.trans (store.later_keepSink chunk sink)
  unfold Fill.completion
  cases hending : fill.ending with
  | error e =>
    refine ⟨store.keepSink chunk sink, rfl, hkept, fun other => ?_⟩
    rw [content_keepSink, h.content, List.append_nil]
  | ok =>
    refine ⟨(store.keepSink chunk sink).setContent chunk sink.contents, rfl,
      hkept.trans (later_setContent ..), fun other => ?_⟩
    rw [content_setContent (hkept.wellFormed hm), hkept.sharesCell_eq, contentAfter_concat,
      content_keepSink, h.content, hsink]

/-! ## Whole replacements and programs -/

/-- **A whole replacement**, if it is known what the program that fills it does to a memory. -/
theorem Reached.replaceBy (h : m.Reached before store) (hm : m.WellFormed) (hplain : m.Plain)
    (hi : i < m.chunks.length) {fill : Fill Nat Act}
    (hrun : ∀ store', m.Reached before store' →
      m.Reached (before ++ fill.completed) (fill.run perform {} store').store ∧
        (fill.run perform {} store').report = m.foresee before fill) :
    let result := fill.replaceBy perform store i
    result.1 = fill.ending ∧
      m.Reached (before ++ fill.completed ++ Fill.completion i fill) result.2.1 ∧
      result.2.2 = m.foresee before fill := by
  obtain ⟨begun, hstage, hbegun⟩ := h.stage hplain hi
  obtain ⟨hfilled, hreport⟩ := hrun begun hbegun
  obtain ⟨houtcome, hwritten⟩ := fill.run_ending_new perform begun
  obtain ⟨concluded, hconclude, hconcluded⟩ := hfilled.conclude hm i hwritten
  rw [Fill.replaceBy, hstage]
  dsimp only
  rw [houtcome, hconclude]
  exact ⟨rfl, hconcluded, hreport⟩

/-- **A whole program** completes the replacements that stand in its text, and sees what was to be
foreseen. -/
theorem Reached.run (h : m.Reached before store) (hm : m.WellFormed) (hplain : m.Plain)
    {fill : Fill Nat Act} (htargets : ∀ i ∈ fill.targets, i < m.chunks.length) {sink : ByteSink}
    (hplan : sink.plan = []) (hflush : sink.flushPlan = []) :
    m.Reached (before ++ fill.completed) (fill.run perform sink store).store ∧
      (fill.run perform sink store).report = m.foresee before fill := by
  induction fill generalizing before store sink with
  | done => exact ⟨(List.append_nil before).symm ▸ h, rfl⟩
  | fail e => exact ⟨(List.append_nil before).symm ▸ h, rfl⟩
  | write bytes rest ih =>
    have hok := ByteSink.writeAll_of_harmless (hplan ▸ harmless_nil) bytes
    have hspends := sink.spends_writeAll bytes
    rw [Fill.run]
    rcases hw : sink.writeAll bytes with ⟨e | _, sink'⟩ <;> rw [hw] at hok hspends
    · cases hok
    · exact ih h htargets (List.suffix_nil.1 (hplan ▸ hspends.plan)) (hspends.flushPlan.trans hflush)
  | flush rest ih =>
    rw [Fill.run, Fill.flush_of_flushPlan hflush]
    exact ih h htargets hplan hflush
  | act what rest ih =>
    cases what with
    | look chunk =>
      obtain ⟨hreached, hreport⟩ := ih h htargets hplan hflush
      refine ⟨hreached, ?_⟩
      show Report.sight (store.content chunk) (rest.run perform sink store).report = _
      rw [hreport, h.content]
      rfl
  -- a replacement, and then what follows it
  | replace i inner rest ihinner ihrest =>
    obtain ⟨hi, hinner, hrest⟩ := Fill.forall_targets_replace.1 htargets
    obtain ⟨houtcome, hreplaced, hseen⟩ :=
      h.replaceBy hm hplain hi fun store' hstore' => ihinner hstore' hinner rfl rfl
    obtain ⟨hreached, hreport⟩ := ihrest hreplaced hrest hplan hflush
    rw [Fill.run_replace]
    refine ⟨?_, ?_⟩
    · simpa [List.append_assoc] using hreached
    · dsimp only
      rw [houtcome, hseen, hreport]
      rfl

/-! ## Every point on the way -/

/-- **A point of a run**. -/
structure Point where
  /-- The program that is running; those that it is nested in wait for it. -/
  program : Fill Nat Act
  /-- What is left of it. -/
  rest : Fill Nat Act
  /-- The sink of the replacement that it fills. -/
  sink : ByteSink
  /-- The memory. -/
  store : Memory

/-- **The points that a run passes**: `Passes program rest sink store done p` says that, while what is left
of a program runs, the run comes to the point `p`, and `done` are the replacements that are completed on the
way there. -/
inductive Passes :
    Fill Nat Act → Fill Nat Act → ByteSink → Memory → List (Completed Nat) → Point → Prop
  /-- Where it is. -/
  | here (program rest : Fill Nat Act) (sink : ByteSink) (store : Memory) :
      Passes program rest sink store [] ⟨program, rest, sink, store⟩
  /-- Bytes are written. -/
  | write {program rest : Fill Nat Act} {bytes : Bytes} {sink sink' : ByteSink} {store : Memory}
      {done : List (Completed Nat)} {p : Point} (written : sink.writeAll bytes = (.ok (), sink'))
      (later : Passes program rest sink' store done p) :
      Passes program (.write bytes rest) sink store done p
  /-- The sink is flushed. -/
  | flush {program rest : Fill Nat Act} {sink sink' : ByteSink} {store : Memory}
      {done : List (Completed Nat)} {p : Point} (flushed : sink.flush = (.ok (), sink'))
      (later : Passes program rest sink' store done p) :
      Passes program (.flush rest) sink store done p
  /-- A chunk is looked at. -/
  | act {program rest : Fill Nat Act} {what : Act} {sink : ByteSink} {store : Memory}
      {done : List (Completed Nat)} {p : Point}
      (later : Passes program rest sink (perform what store).2 done p) :
      Passes program (.act what rest) sink store done p
  /-- A nested replacement is begun, and the point lies in the program that fills it. -/
  | inside {program inner rest : Fill Nat Act} {i : Nat} {commitError : Option StreamError}
      {sink sink' : ByteSink} {store store' : Memory} {done : List (Completed Nat)} {p : Point}
      (begun : ChunkStore.stage store i = (.ok (commitError, sink'), store'))
      (within : Passes inner inner sink' store' done p) :
      Passes program (.replace i inner rest) sink store done p
  /-- A nested replacement is over, and the point lies behind it. -/
  | behind {program inner rest : Fill Nat Act} {i : Nat} {sink : ByteSink} {store : Memory}
      {done : List (Completed Nat)} {p : Point}
      (later : Passes program rest sink (inner.replaceBy perform store i).2.1 done p) :
      Passes program (.replace i inner rest) sink store
        (inner.completed ++ Fill.completion i inner ++ done) p

/-- **At every point** the contents are those of the replacements completed so far, and what a program
has staged is what it has written itself. -/
theorem Reached.passes {program rest : Fill Nat Act} {sink : ByteSink} {p : Point}
    (h : m.Reached before store) (hm : m.WellFormed) (hplain : m.Plain)
    (htargets : ∀ i ∈ rest.targets, i < m.chunks.length)
    (hstaged : sink.contents ++ rest.written = program.written)
    (hpasses : Passes program rest sink store done p) :
    m.Reached (before ++ done) p.store ∧ p.sink.contents ++ p.rest.written = p.program.written := by
  induction hpasses generalizing before with
  | here program rest sink store => exact ⟨by simpa using h, hstaged⟩
  | write written _ ih =>
    refine ih h htargets ?_
    rw [ByteSink.contents_of_writeAll written, List.append_assoc]
    exact hstaged
  | @flush program rest sink sink' store done p flushed _ ih =>
    have hcontents : sink'.contents = sink.contents := by rw [← sink.contents_flush, flushed]
    exact ih h htargets (hcontents ▸ hstaged)
  | @act program rest what sink store done p _ ih =>
    cases what with
    | look chunk => exact ih h htargets hstaged
  | @inside program inner rest i commitError sink sink' store store' done p begun _ ih =>
    obtain ⟨hi, hinner, -⟩ := Fill.forall_targets_replace.1 htargets
    obtain ⟨rfl, hreached⟩ := h.of_stage hplain hi begun
    exact ih hreached hinner rfl
  | @behind program inner rest i sink store done p _ ih =>
    obtain ⟨hi, hinner, hrest⟩ := Fill.forall_targets_replace.1 htargets
    obtain ⟨-, hreplaced, -⟩ :=
      h.replaceBy hm hplain hi fun store' hstore' => hstore'.run hm hplain hinner rfl rfl
    obtain ⟨hreached, hpoint⟩ := ih hreplaced hrest hstaged
    exact ⟨by simpa [List.append_assoc] using hreached, hpoint⟩

/-- **The last completed replacement counts**, whatever chunks share a cell and however replacements are
nested. Of the replacement of a chunk by what a program writes this says:

* It succeeds exactly if the program ends well by its own steps.
* Afterwards each chunk holds what the last completed replacement of its cell has staged, and its original
  content if there is none.
* What the program sees on the way, and what nested programs see, is what was to be foreseen: for every look
  the content in the same sense, and for every nested replacement whether the program that fills it ends
  well.
* At every point on the way the contents are told in the same way by the replacements completed before it.
  What is staged there, with what the program has still to write itself, is all that it writes itself. -/
theorem replaceBy_lastCompleted (m : Memory) (hm : m.WellFormed) (hplain : m.Plain) (chunk : Nat)
    (fill : Fill Nat Act) (htargets : ∀ i ∈ chunk :: fill.targets, i < m.chunks.length) :
    let result := fill.replaceBy perform m chunk
    result.1 = fill.ending ∧
      (∀ i, result.2.1.content i =
        (((fill.completed ++ Fill.completion chunk fill).filter fun r =>
          m.sharesCell r.chunk i).getLast?.map Completed.content).getD (m.content i)) ∧
      result.2.2 = m.foresee [] fill ∧
      ∀ commitError sink store done p,
        ChunkStore.stage m chunk = (.ok (commitError, sink), store) →
        Passes fill fill sink store done p →
        (∀ i, p.store.content i = m.contentAfter i done) ∧
          p.sink.contents ++ p.rest.written = p.program.written := by
  intro result
  obtain ⟨hchunk, hfill⟩ := List.forall_mem_cons.1 htargets
  obtain ⟨houtcome, hreached, hreport⟩ := (Reached.refl m).replaceBy hm hplain hchunk
    fun store' hstore' => hstore'.run hm hplain hfill rfl rfl
  refine ⟨houtcome, fun i => (hreached.content i).trans (m.contentAfter_eq_getLast? i _), hreport,
    fun commitError sink store done p hstage hpasses => ?_⟩
  obtain ⟨rfl, hbegun⟩ := (Reached.refl m).of_stage hplain hchunk hstage
  obtain ⟨hpoint, hstaged⟩ := hbegun.passes hm hplain hfill rfl hpasses
  exact ⟨hpoint.content, hstaged⟩

/-- A chunk, a clone of it and another chunk: while the first is being replaced, the clone is replaced, and
meanwhile the replacement of the third fails. The outer replacement fails as well, and what the replacement
of the clone has staged stays. -/
theorem replaceBy_lastCompleted_clone :
    let m := ((({} : Memory).add [97] [] []).share 0 [] []).add [98] [] []
    let e : StreamError := .reported .timedOut "late"
    let fill : Fill Nat Act :=
      .write [99] (.replace 1
        (.write [100] (.replace 2 (.write [101] (.fail e)) (.act (.look 0) .done)))
        (.act (.look 0) (.fail e)))
    let result := fill.replaceBy perform m 0
    result.1 = .error e ∧ result.2.1.content 0 = [100] ∧ result.2.1.content 2 = [98] ∧
      result.2.2 =
        .nested (.ok ()) (.nested (.error e) .nil (.sight [97] .nil)) (.sight [100] .nil) := by
  intro m e fill result
  have hwell : m.WellFormed := ((wellFormed_empty.add _ _ _).share _ _ _).add _ _ _
  have hplain : m.Plain := by simp [Plain, m, Memory.add, Memory.share]
  obtain ⟨houtcome, hcontent, hreport, -⟩ :=
    replaceBy_lastCompleted m hwell hplain 0 fill (by decide)
  exact ⟨houtcome, hcontent 0, hcontent 2, hreport⟩

end Memory

end RecordSort
