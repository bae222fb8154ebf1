import RecordSort.Chunk.Memory
import RecordSort.Sort.Schedule

/-! # How far workers come

Whatever a schedule says, a worker that has been named three times has ended, and no worker changes what
another one has come to. What holds at first and is kept by every step of a worker holds after every
schedule.

* **`runSchedule_induction`** — properties that steps keep.
* **`Progression.stage`**, **`stage_runSchedule`** — every step brings its worker on.
* **`getElem?_sortChunksIn`** — after a whole schedule every worker has ended with its outcome.
* **`firstFailure_eq_none_iff`**, **`firstFailure_eq_some`** — which outcome ends a sort.
* **`openChunks_induction`** — properties that openings keep.
* **`mergeChunks_of_failure`**, **`_of_refusal`**, **`_of_readers`** — the three ways on from there.
* **`sortIn_induction`** — properties that a whole sort keeps after its first phase. -/

namespace RecordSort

/-- How far the sort of a chunk **of a memory** has come. -/
abbrev MemoryProgression : Type := Progression (Option StreamError)

/-- **A memory** on which workers sort chunks. -/
abbrev MemoryWorkshop : Type := Workshop Memory Nat (Option StreamError)

/-- How many of its three steps a worker need not take any more. -/
def Progression.stage {Staged : Type} : Progression Staged → Nat
  | .waiting => 0
  | .loaded _ => 1
  | .staged _ _ _ => 2
  | .ended _ => 3

namespace Sorter

section Steps

variable {ω Chunk Staged : Type} [ChunkStore ω Chunk Staged] {s : Sorter}
  {cmp : Record → Record → Ordering}

/-- The workshop after a step of worker `i`, which has come to `progress` with `chunk`. -/
theorem advance_of_getElem? {w : Workshop ω Chunk Staged} {i : Nat} {chunk : Chunk}
    {progress : Progression Staged} (h : w.workers[i]? = some (chunk, progress)) :
    s.advance cmp w i =
      ⟨(s.stepWorker cmp w.store chunk progress).2,
        w.workers.set i (chunk, (s.stepWorker cmp w.store chunk progress).1)⟩ := by
  rw [advance, h]

/-- A number without a worker changes nothing. -/
theorem advance_of_none {w : Workshop ω Chunk Staged} {i : Nat} (h : w.workers[i]? = none) :
    s.advance cmp w i = w := by
  rw [advance, h]

/-- **What every step of a worker keeps** holds after a schedule if it holds before. -/
theorem runSchedule_induction {P : Workshop ω Chunk Staged → Prop}
    (hstep : ∀ w i chunk progress, w.workers[i]? = some (chunk, progress) → P w →
      P ⟨(s.stepWorker cmp w.store chunk progress).2,
        w.workers.set i (chunk, (s.stepWorker cmp w.store chunk progress).1)⟩)
    {w : Workshop ω Chunk Staged} (h : P w) (schedule : List Nat) : P (s.runSchedule cmp w schedule) := by
  induction schedule generalizing w with
  | nil => exact h
  | cons i rest ih =>
    rw [runSchedule_cons]
    refine ih ?_
    cases hi : w.workers[i]? with
    | none => rw [advance_of_none hi]; exact h
    | some worker => rw [advance_of_getElem? hi]; exact hstep w i _ _ hi h

/-- A step brings its worker on, unless it has ended. -/
theorem stage_stepWorker (store : ω) (chunk : Chunk) (progress : Progression Staged) :
    min 3 (progress.stage + 1) ≤ (s.stepWorker cmp store chunk progress).1.stage := by
  cases progress with
  | waiting =>
    rw [stepWorker]
    rcases s.chunkSorter.load store chunk with ⟨e | rs, store'⟩ <;> simp [Progression.stage]
  | loaded rs =>
    rw [stepWorker]
    rcases s.chunkSorter.stage store chunk rs with ⟨e | ⟨staged, filled⟩, store'⟩ <;>
      simp [Progression.stage]
  | staged staged filled count => simp [stepWorker, Progression.stage]
  | ended outcome => simp [stepWorker, Progression.stage]

/-- **Every time a schedule names a worker it comes on**, and it keeps its chunk. -/
theorem stage_runSchedule {w : Workshop ω Chunk Staged} {k : Nat} {chunk : Chunk}
    {progress : Progression Staged} (h : w.workers[k]? = some (chunk, progress)) (schedule : List Nat) :
    ∃ progress', (s.runSchedule cmp w schedule).workers[k]? = some (chunk, progress') ∧
      min 3 (progress.stage + schedule.count k) ≤ progress'.stage := by
  induction schedule generalizing w progress with
  | nil => exact ⟨progress, h, by rw [List.count_nil]; omega⟩
  | cons i rest ih =>
    rw [runSchedule_cons]
    by_cases hik : i = k
    -- the worker itself takes a step
    · subst hik
      have hlt : i < w.workers.length := (List.getElem?_eq_some_iff.1 h).1
      obtain ⟨progress', hk, hstage⟩ :=
        @ih (s.advance cmp w i) (s.stepWorker cmp w.store chunk progress).1
          (by rw [advance_of_getElem? h, List.getElem?_set_self hlt])
      refine ⟨progress', hk, ?_⟩
      have hstep : min 3 (progress.stage + 1) ≤ (s.stepWorker cmp w.store chunk progress).1.stage :=
        stage_stepWorker w.store chunk progress
      rw [List.count_cons_self]
      omega
    -- another worker does
    · have hother : (s.advance cmp w i).workers[k]? = some (chunk, progress) := by
        cases hi : w.workers[i]? with
        | none => rw [advance_of_none hi]; exact h
        | some worker => rw [advance_of_getElem? hi, List.getElem?_set_ne hik]; exact h
      obtain ⟨progress', hk, hstage⟩ := ih hother
      refine ⟨progress', hk, ?_⟩
      rw [List.count_cons_of_ne (by simpa using hik)]
      exact hstage

/-- One by one, every worker takes three steps. -/
theorem three_le_count_oneByOne {index n k : Nat} (h : index ≤ k) (hk : k < index + n) :
    3 ≤ (oneByOne index n).count k := by
  induction n generalizing index with
  | zero => omega
  | succ n ih =>
    rw [oneByOne]
    rcases Nat.eq_or_lt_of_le h with rfl | hlt
    · rw [List.count_cons_self, List.count_cons_self, List.count_cons_self]
      omega
    · have hne : (index == k) = false := by rw [beq_eq_false_iff_ne]; omega
      rw [List.count_cons, List.count_cons, List.count_cons, hne]
      exact ih hlt (by omega)

/-- No worker comes or goes. -/
theorem length_workers (w : Workshop ω Chunk Staged) (schedule : List Nat) :
    (s.runSchedule cmp w schedule).workers.length = w.workers.length := by
  refine runSchedule_induction (P := fun w' => w'.workers.length = w.workers.length) ?_ rfl schedule
  intro w' i chunk progress _ h
  rw [List.length_set]
  exact h

/-! ## The end of a schedule -/

/-- The workshop **at the end**: the schedule has been followed, and the workers that had not ended have
ended one by one. -/
def atEnd (s : Sorter) (cmp : Record → Record → Ordering) (schedule : List Nat) (store : ω)
    (chunks : List Chunk) : Workshop ω Chunk Staged :=
  s.runSchedule cmp (openWorkshop store chunks) (schedule ++ oneByOne 0 chunks.length)

variable {schedule : List Nat} {store : ω} {chunks : List Chunk}

/-- **At the end every worker has ended.** -/
theorem ended_atEnd (s : Sorter) (cmp : Record → Record → Ordering) (schedule : List Nat) (store : ω)
    {k : Nat} {chunk : Chunk} (h : chunks[k]? = some chunk) :
    ∃ outcome, (s.atEnd cmp schedule store chunks).workers[k]? = some (chunk, .ended outcome) := by
  have hk : k < chunks.length := (List.getElem?_eq_some_iff.1 h).1
  have hopen : (openWorkshop store chunks).workers[k]? =
      some (chunk, (.waiting : Progression Staged)) := by
    rw [openWorkshop, List.getElem?_map, h]
    rfl
  obtain ⟨progress, hprogress, hstage⟩ :=
    @stage_runSchedule _ _ _ _ s cmp _ _ _ _ hopen (schedule ++ oneByOne 0 chunks.length)
  have hcount := three_le_count_oneByOne (Nat.zero_le k) (n := chunks.length) (by omega)
  rw [List.count_append] at hstage
  cases progress with
  | waiting => simp only [Progression.stage] at hstage; omega
  | loaded rs => simp only [Progression.stage] at hstage; omega
  | staged staged filled count => simp only [Progression.stage] at hstage; omega
  | ended outcome => exact ⟨outcome, hprogress⟩

/-- A worker that stands in the workshop at the end has ended. -/
theorem ended_of_mem_atEnd {k : Nat} {chunk : Chunk} {progress : Progression Staged}
    (h : (s.atEnd cmp schedule store chunks).workers[k]? = some (chunk, progress)) :
    chunks[k]? = some chunk ∧ ∃ outcome, progress = .ended outcome := by
  have hk : k < chunks.length := by
    have hlt := (List.getElem?_eq_some_iff.1 h).1
    rw [atEnd, length_workers, openWorkshop, List.length_map] at hlt
    exact hlt
  obtain ⟨outcome, houtcome⟩ := s.ended_atEnd cmp schedule store (List.getElem?_eq_getElem hk)
  rw [h, Option.some.injEq, Prod.mk.injEq] at houtcome
  rw [List.getElem?_eq_getElem hk, houtcome.1]
  exact ⟨rfl, outcome, houtcome.2⟩

/-- Taking the values of a list all of which have one keeps the places. -/
theorem getElem?_filterMap_of_isSome {α β : Type} {f : α → Option β} {l : List α}
    (h : ∀ a ∈ l, (f a).isSome) (k : Nat) : (l.filterMap f)[k]? = l[k]?.bind f := by
  induction l generalizing k with
  | nil => rfl
  | cons a rest ih =>
    obtain ⟨b, hb⟩ := Option.isSome_iff_exists.1 (h a List.mem_cons_self)
    rw [List.filterMap_cons, hb]
    cases k with
    | zero => simpa using hb.symm
    | succ k => simpa using ih (fun a ha => h a (List.mem_cons_of_mem _ ha)) k

/-- **The outcomes of the chunk sorts** are those with which the workers have ended. -/
theorem getElem?_sortChunksIn {k : Nat} {outcome : Except StreamError Nat} :
    (s.sortChunksIn cmp schedule store chunks).1[k]? = some outcome ↔
      ∃ chunk, (s.atEnd cmp schedule store chunks).workers[k]? =
        some (chunk, .ended outcome) := by
  have hall : ∀ worker ∈ (s.atEnd cmp schedule store chunks).workers,
      (worker.2.outcome?).isSome := by
    rintro ⟨chunk, progress⟩ hmem
    obtain ⟨k, hk⟩ := List.mem_iff_getElem?.1 hmem
    obtain ⟨-, outcome, rfl⟩ := ended_of_mem_atEnd hk
    rfl
  have hget := getElem?_filterMap_of_isSome hall k
  rw [show (s.sortChunksIn cmp schedule store chunks).1[k]? = _ from hget]
  cases hk : (s.atEnd cmp schedule store chunks).workers[k]? with
  | none => simp
  | some worker =>
    obtain ⟨chunk, progress⟩ := worker
    obtain ⟨-, outcome', rfl⟩ := ended_of_mem_atEnd hk
    simp [Progression.outcome?]

end Steps

/-! ## The outcome that counts -/

/-- There is no first failure exactly if all outcomes are good. -/
theorem firstFailure_eq_none_iff {index : Nat} {outcomes : List (Except StreamError Nat)} :
    firstFailure index outcomes = none ↔ ∀ o ∈ outcomes, ∃ n, o = .ok n := by
  induction outcomes generalizing index with
  | nil => simp [firstFailure]
  | cons o rest ih =>
    cases o with
    | error e => simp [firstFailure]
    | ok n => simp [firstFailure, ih]

/-- **The first failure** is the one with the least number. -/
theorem firstFailure_eq_some {index k : Nat} {outcomes : List (Except StreamError Nat)}
    {e : StreamError} (hk : outcomes[k]? = some (.error e))
    (hbefore : ∀ j < k, ∃ n, outcomes[j]? = some (.ok n)) :
    firstFailure index outcomes = some (index + k, e) := by
  induction outcomes generalizing index k with
  | nil => simp at hk
  | cons o rest ih =>
    cases k with
    | zero =>
      obtain rfl : o = .error e := by simpa using hk
      rfl
    | succ k =>
      obtain ⟨n, hn⟩ := hbefore 0 (by omega)
      obtain rfl : o = .ok n := by simpa using hn
      have hrest := @ih (index + 1) k (by simpa using hk) fun j hj => by
        simpa using hbefore (j + 1) (by omega)
      rw [firstFailure, hrest]
      congr 2
      omega

section Merge

variable {ω Chunk Staged : Type} [ChunkStore ω Chunk Staged] {s : Sorter}
  {cmp : Record → Record → Ordering} {chunks : List Chunk} {output : ByteSink}
  {sorted : List (Except StreamError Nat) × ω}

/-- Nothing is opened behind a chunk that cannot be. -/
theorem openChunks_of_error {store : ω} {chunk : Chunk} {e : StreamError}
    (h : (ChunkStore.openRead store chunk).1 = .error e) (index : Nat) (rest : List Chunk) :
    s.openChunks index store (chunk :: rest) =
      (.error (.chunkOpen index e), (ChunkStore.openRead store chunk).2) := by
  rw [openChunks]
  rcases ho : ChunkStore.openRead store chunk with ⟨e' | source, store'⟩ <;> rw [ho] at h
  · obtain rfl : e' = e := by simpa using h
    rfl
  · contradiction

/-- Behind a chunk that has been opened the other ones are. -/
theorem openChunks_of_ok {store : ω} {chunk : Chunk} {source : ByteSource}
    (h : (ChunkStore.openRead store chunk).1 = .ok source) (index : Nat) (rest : List Chunk) :
    s.openChunks index store (chunk :: rest) =
      ((s.openChunks (index + 1) (ChunkStore.openRead store chunk).2 rest).1.map
          (s.chunkSorter.reader source :: ·),
        (s.openChunks (index + 1) (ChunkStore.openRead store chunk).2 rest).2) := by
  rw [openChunks]
  rcases ho : ChunkStore.openRead store chunk with ⟨e | source', store'⟩ <;> rw [ho] at h
  · contradiction
  · obtain rfl : source' = source := by simpa using h
    rfl

/-- **What every opening keeps** holds after chunks have been opened if it holds before. -/
theorem openChunks_induction {P : ω → Prop}
    (hopen : ∀ store, ∀ chunk ∈ chunks, P store → P (ChunkStore.openRead store chunk).2)
    {store : ω} (h : P store) (index : Nat) : P (s.openChunks index store chunks).2 := by
  induction chunks generalizing store index with
  | nil => exact h
  | cons chunk rest ih =>
    have hfirst := hopen store chunk List.mem_cons_self h
    cases ho : (ChunkStore.openRead store chunk).1 with
    | error e => rw [openChunks_of_error ho]; exact hfirst
    | ok source =>
      rw [openChunks_of_ok ho]
      exact ih (fun store chunk hmem => hopen store chunk (List.mem_cons_of_mem _ hmem)) hfirst _

/-- After a failed chunk sort nothing is opened and nothing is written. -/
theorem mergeChunks_of_failure {k : Nat} {e : StreamError}
    (h : firstFailure 0 sorted.1 = some (k, e)) :
    s.mergeChunks cmp chunks output sorted = ⟨.error (.chunkSort k e), sorted.2, output⟩ := by
  rw [mergeChunks, h]

/-- If a chunk cannot be opened nothing is written. -/
theorem mergeChunks_of_refusal (h : firstFailure 0 sorted.1 = none) {e : SortError} {store : ω}
    (hopen : s.openChunks 0 sorted.2 chunks = (.error e, store)) :
    s.mergeChunks cmp chunks output sorted = ⟨.error e, store, output⟩ := by
  rw [mergeChunks, h]
  dsimp only
  rw [hopen]

/-- If all chunks are opened the readers are merged into the output. -/
theorem mergeChunks_of_readers (h : firstFailure 0 sorted.1 = none) {readers : List RecordReader}
    {store : ω} (hopen : s.openChunks 0 sorted.2 chunks = (.ok readers, store)) :
    s.mergeChunks cmp chunks output sorted =
      ⟨(s.mergeInto cmp readers output).1.mapError .merge, store,
        (s.mergeInto cmp readers output).2⟩ := by
  rw [mergeChunks, h]
  dsimp only
  rw [hopen]

/-- **What every opening keeps** holds after a whole sort if it holds after its first phase. -/
theorem sortIn_induction {P : ω → Prop}
    (hopen : ∀ store, ∀ chunk ∈ chunks, P store → P (ChunkStore.openRead store chunk).2)
    {schedule : List Nat} {store : ω} (h : P (s.sortChunksIn cmp schedule store chunks).2) :
    P (s.sortIn cmp schedule store chunks output).store := by
  have hopened : P (s.openChunks 0 (s.sortChunksIn cmp schedule store chunks).2 chunks).2 :=
    openChunks_induction hopen h 0
  rw [sortIn]
  cases hfailure : firstFailure 0 (s.sortChunksIn cmp schedule store chunks).1 with
  | some failure => rw [mergeChunks_of_failure hfailure]; exact h
  | none =>
    rcases ho : s.openChunks 0 (s.sortChunksIn cmp schedule store chunks).2 chunks with
      ⟨e | readers, store'⟩ <;> rw [ho] at hopened
    · rw [mergeChunks_of_refusal hfailure ho]; exact hopened
    · rw [mergeChunks_of_readers hfailure ho]; exact hopened

end Merge

end Sorter

end RecordSort
