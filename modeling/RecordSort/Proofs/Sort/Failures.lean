import RecordSort.Proofs.Record.StableSort
import RecordSort.Proofs.Sort.Alone

/-! # Failures before any output

All chunks are sorted before any is opened for the merge, and all are opened before anything is written.
So a failure in either of these phases leaves the output untouched, and it is told with the least number
of a chunk that fails. Where the chunks share nothing, each of them is left as its own sort leaves it.

* **`Memory.timesOpened`**, **`timesReplaced`** — how often a chunk was opened, or was to be replaced.
* **`OpenedUpTo`**, **`openChunks_of_refusal`** — the second phase up to the first chunk that cannot be
  opened.
* **`sortBy_cases`**, **`sortBy_alone`** — what the sort of one chunk comes to, and does to it.
* **`sortIn_of_apart`** — both phases, whatever the schedule says. -/

namespace RecordSort

namespace Memory

/-- How often a chunk was opened. -/
def timesOpened (m : Memory) (i : Nat) : Nat := (m.chunks[i]?.map (·.opened)).getD 0

/-- How often a chunk was to be replaced. -/
def timesReplaced (m : Memory) (i : Nat) : Nat := (m.chunks[i]?.map (·.replaced)).getD 0

/-- The sinks of the replacements of a chunk that have ended, the latest first. -/
def endedSinks (m : Memory) (i : Nat) : List ByteSink := (m.chunks[i]?.map (·.sinks)).getD []

/-- The bytes that the next reader of a chunk **gets to see** if it asks for `size` bytes at a time. -/
def readable (m : Memory) (i size : Nat) : Bytes :=
  match m.chunks[i]?.map MemoryChunk.nextOpening with
  | some (.serve plan) => ({ data := m.content i, plan := plan } : ByteSource).stream size
  | some (.refuse _) | none => []

variable {m m' : Memory} {i j : Nat} {c : MemoryChunk}

/-- How often a chunk was opened stands in it. -/
theorem timesOpened_of_chunk (hc : m.chunks[i]? = some c) : m.timesOpened i = c.opened := by
  rw [timesOpened, hc]
  rfl

/-- How often a chunk was to be replaced stands in it. -/
theorem timesReplaced_of_chunk (hc : m.chunks[i]? = some c) : m.timesReplaced i = c.replaced := by
  rw [timesReplaced, hc]
  rfl

/-- The sinks of its replacements stand in it. -/
theorem endedSinks_of_chunk (hc : m.chunks[i]? = some c) : m.endedSinks i = c.sinks := by
  rw [endedSinks, hc]
  rfl

/-- Memories that agree at a chunk tell alike how often it was opened. -/
theorem AgreesAt.timesOpened (h : m.AgreesAt m' i) : m'.timesOpened i = m.timesOpened i := by
  rw [Memory.timesOpened, Memory.timesOpened, h.chunk]

/-- They tell alike how often it was to be replaced. -/
theorem AgreesAt.timesReplaced (h : m.AgreesAt m' i) : m'.timesReplaced i = m.timesReplaced i := by
  rw [Memory.timesReplaced, Memory.timesReplaced, h.chunk]

/-! ## Openings -/

/-- **Opening a chunk leaves the other ones** as they are. -/
theorem agreesAt_openRead (m : Memory) (h : i ≠ j) : m.AgreesAt (m.openRead i).2 j := by
  cases hc : m.chunks[i]? with
  | none => rw [openRead, hc]; exact .refl m j
  | some c =>
    rw [openRead_eq hc]
    exact ⟨getElem?_setChunk_ne h, content_setChunk hc c.later_noteOpening.cell j⟩

/-- Opening changes no content and replaces nothing. -/
theorem content_openRead (m : Memory) (i j : Nat) :
    (m.openRead i).2.content j = m.content j ∧
      (m.openRead i).2.timesReplaced j = m.timesReplaced j := by
  by_cases hij : i = j
  · subst hij
    cases hc : m.chunks[i]? with
    | none => rw [openRead, hc]; exact ⟨rfl, rfl⟩
    | some c =>
      have hcount : (m.setChunk i c.noteOpening).timesReplaced i = c.noteOpening.replaced :=
        timesReplaced_of_chunk (getElem?_setChunk_self hc)
      rw [openRead_eq hc, timesReplaced_of_chunk hc]
      exact ⟨content_setChunk hc c.later_noteOpening.cell i, hcount⟩
  · have hagrees := m.agreesAt_openRead hij
    exact ⟨hagrees.content, hagrees.timesReplaced⟩

/-- Every opening of a chunk is counted. -/
theorem timesOpened_openRead (hc : m.chunks[i]? = some c) :
    (m.openRead i).2.timesOpened i = m.timesOpened i + 1 := by
  have hcount : (m.setChunk i c.noteOpening).timesOpened i = c.noteOpening.opened :=
    timesOpened_of_chunk (getElem?_setChunk_self hc)
  rw [openRead_eq hc, timesOpened_of_chunk hc]
  exact hcount

/-- Memories that agree on a chunk open it alike. -/
theorem AgreesAt.openRead (h : m.AgreesAt m' i) (hc : m.chunks[i]? = some c) :
    (m'.openRead i).1 = (m.openRead i).1 ∧ (m.openRead i).2.AgreesAt (m'.openRead i).2 i := by
  have hc' : m'.chunks[i]? = some c := h.chunk.trans hc
  have hchanges := changes_setChunk hc c.later_noteOpening
  have hchanges' := changes_setChunk hc' c.later_noteOpening
  rw [h.content] at hchanges'
  rw [openRead_eq hc, openRead_eq hc', h.content]
  exact ⟨rfl, hchanges.agreesAt hchanges'⟩

end Memory

namespace Sorter

variable {s : Sorter} {cmp : Record → Record → Ordering} {m : Memory} {chunks : List Nat}

/-- Opening chunks leaves the chunks that are not among them. -/
theorem agreesAt_openChunks (s : Sorter) (index : Nat) (m : Memory) {j : Nat} (h : j ∉ chunks) :
    m.AgreesAt (s.openChunks index m chunks).2 j := by
  refine @openChunks_induction _ _ _ _ s chunks (fun m' => m.AgreesAt m' j) ?_ _ (.refl m j) index
  intro m' i hi hagrees
  have hne : i ≠ j := by
    rintro rfl
    exact h hi
  exact hagrees.trans (m'.agreesAt_openRead hne)

/-- The chunks of a list have been opened **up to the one with number `k`**, and those behind it are as
they were. -/
def OpenedUpTo (m m' : Memory) (chunks : List Nat) (k : Nat) : Prop :=
  ∀ j i, chunks[j]? = some i →
    (j ≤ k → (m.openRead i).2.AgreesAt m' i) ∧ (k < j → m.AgreesAt m' i)

/-- Only the first chunk has been opened. -/
theorem openedUpTo_zero {i : Nat} (hnot : i ∉ chunks) :
    OpenedUpTo m (m.openRead i).2 (i :: chunks) 0 := by
  intro j i' hj
  cases j with
  | zero =>
    obtain rfl : i = i' := by simpa using hj
    exact ⟨fun _ => .refl _ _, fun h => absurd h (Nat.lt_irrefl 0)⟩
  | succ j =>
    have hmem : i' ∈ chunks := List.mem_of_getElem? (by simpa using hj)
    have hne : i ≠ i' := by
      rintro rfl
      exact hnot hmem
    exact ⟨fun h => absurd h (by omega), fun _ => m.agreesAt_openRead hne⟩

/-- The first chunk has been opened, and then others have been. -/
theorem OpenedUpTo.cons {m' : Memory} {i k : Nat} (h : OpenedUpTo (m.openRead i).2 m' chunks k)
    (hnot : i ∉ chunks) (hchunk : ∀ j ∈ chunks, ∃ c, m.chunks[j]? = some c)
    (hfirst : (m.openRead i).2.AgreesAt m' i) : OpenedUpTo m m' (i :: chunks) (k + 1) := by
  intro j i' hj
  cases j with
  | zero =>
    obtain rfl : i = i' := by simpa using hj
    exact ⟨fun _ => hfirst, fun h => absurd h (by omega)⟩
  | succ j =>
    have hj' : chunks[j]? = some i' := by simpa using hj
    have hmem := List.mem_of_getElem? hj'
    have hne : i ≠ i' := by
      rintro rfl
      exact hnot hmem
    obtain ⟨c, hc⟩ := hchunk i' hmem
    have hframe := m.agreesAt_openRead hne
    obtain ⟨hle, hlt⟩ := h j i' hj'
    exact ⟨fun hjk => (hframe.openRead hc).2.trans (hle (by omega)),
      fun hkj => hframe.trans (hlt (by omega))⟩

/-- **Chunks are opened in order up to the first one that cannot be**: this one is told, and those behind
it are left as they are. -/
theorem openChunks_of_refusal (s : Sorter) (index : Nat) (m : Memory) (hnodup : chunks.Nodup)
    (hchunk : ∀ i ∈ chunks, ∃ c, m.chunks[i]? = some c) {k i : Nat} {e : StreamError}
    (hk : chunks[k]? = some i) (he : (m.openRead i).1 = .error e)
    (hbefore : ∀ j < k, ∀ i', chunks[j]? = some i' → ∃ source, (m.openRead i').1 = .ok source) :
    (s.openChunks index m chunks).1 = .error (.chunkOpen (index + k) e) ∧
      OpenedUpTo m (s.openChunks index m chunks).2 chunks k := by
  induction chunks generalizing index m k with
  | nil => simp at hk
  | cons i₀ rest ih =>
    obtain ⟨hnot, hnodup⟩ := List.nodup_cons.1 hnodup
    cases k with
    | zero =>
      obtain rfl : i₀ = i := by simpa using hk
      have hopened : s.openChunks index m (i₀ :: rest) = (_, (m.openRead i₀).2) :=
        openChunks_of_error he index rest
      rw [hopened]
      exact ⟨rfl, openedUpTo_zero hnot⟩
    -- once the first chunk is open, the others are opened as they would be before
    | succ k =>
      obtain ⟨source, hsource⟩ := hbefore 0 (by omega) i₀ rfl
      have hopened : s.openChunks index m (i₀ :: rest) =
          ((s.openChunks (index + 1) (m.openRead i₀).2 rest).1.map
              (s.chunkSorter.reader source :: ·),
            (s.openChunks (index + 1) (m.openRead i₀).2 rest).2) :=
        openChunks_of_ok hsource index rest
      have hrest : ∀ j ∈ rest, ∃ c, m.chunks[j]? = some c := by
        intro j hj
        exact hchunk j (List.mem_cons_of_mem _ hj)
      have hframe : ∀ j ∈ rest, m.AgreesAt (m.openRead i₀).2 j := by
        intro j hj
        refine m.agreesAt_openRead ?_
        rintro rfl
        exact hnot hj
      have hexists : ∀ j ∈ rest, ∃ c, (m.openRead i₀).2.chunks[j]? = some c := by
        intro j hj
        obtain ⟨c, hc⟩ := hrest j hj
        exact ⟨c, (hframe j hj).chunk.trans hc⟩
      have hsame : ∀ j ∈ rest, ((m.openRead i₀).2.openRead j).1 = (m.openRead j).1 := by
        intro j hj
        obtain ⟨c, hc⟩ := hrest j hj
        exact ((hframe j hj).openRead hc).1
      have hi : rest[k]? = some i := by simpa using hk
      have hbefore' : ∀ j < k, ∀ i', rest[j]? = some i' →
          ∃ source, ((m.openRead i₀).2.openRead i').1 = .ok source := by
        intro j hj i' hi'
        rw [hsame i' (List.mem_of_getElem? hi')]
        exact hbefore (j + 1) (by omega) i' (by simpa using hi')
      obtain ⟨herror, hafter⟩ := ih (index + 1) (m.openRead i₀).2 hnodup hexists hi
        ((hsame i (List.mem_of_getElem? hi)).trans he) hbefore'
      rw [hopened, herror]
      constructor
      · show Except.error (SortError.chunkOpen (index + 1 + k) e) = _
        rw [show index + 1 + k = index + (k + 1) by omega]
      · exact hafter.cons hnot hrest (s.agreesAt_openChunks (index + 1) _ hnot)

/-! ## One chunk -/

/-- **What the sort of a chunk can come to**: it fails before the chunk is to be replaced, it fails while
the chunk is replaced, or it succeeds. -/
theorem sortBy_cases (s : ChunkSorter) {i : Nat} {c : MemoryChunk} (hc : m.chunks[i]? = some c) :
    let opened := m.setChunk i c.noteOpening
    let rs := s.arrange cmp (decode s.delimiter (m.readable i (max s.bufferSize 1)))
    let replaced := opened.setChunk i (c.noteOpening.noteSaving s.delimiter rs)
    (∃ e, s.sortBy cmp m i = (.error e, opened)) ∨ (∃ e, s.sortBy cmp m i = (.error e, replaced)) ∨
      s.sortBy cmp m i = (.ok rs.length, replaced.setContent i (encode s.delimiter rs)) := by
  intro opened rs replaced
  have hopened : opened.chunks[i]? = some c.noteOpening := Memory.getElem?_setChunk_self hc
  rw [ChunkSorter.sortBy]
  cases hopening : c.nextOpening with
  | refuse e =>
    rw [ChunkSorter.load_of_refuse hc hopening]
    exact Or.inl ⟨_, rfl⟩
  | serve plan =>
    rw [ChunkSorter.load_of_serve hc hopening]
    obtain ⟨r, hr⟩ : ∃ r, r = s.reader { data := m.content i, plan := plan } := ⟨_, rfl⟩
    have hfresh : r.Fresh := hr ▸ s.fresh_reader _
    rw [← hr]
    cases houtcome : (drain r).outcome with
    | error e => exact Or.inl ⟨_, rfl⟩
    | ok =>
      have hrecords : (drain r).records =
          decode s.delimiter (m.readable i (max s.bufferSize 1)) := by
        rw [(RecordReader.drain_eq_decode hfresh.inRange).1 houtcome, hfresh.remaining_eq_stream,
          Memory.readable, hc, hr, Option.map_some, hopening]
        rfl
      simp only [Except.map, hrecords]
      cases hsave : c.noteOpening.saveError? s.delimiter rs with
      | some e =>
        rw [ChunkSorter.save_of_some hopened hsave]
        exact Or.inr (Or.inl ⟨_, rfl⟩)
      | none =>
        rw [ChunkSorter.save_of_none hopened hsave]
        exact Or.inr (Or.inr rfl)

/-- **What the sort of a chunk does to it**: the chunk is opened once and replaced at most once. If the
sort fails its content stays as it is, and if it succeeds its content is what the reader got to see, with
its records in order. -/
theorem sortBy_alone (s : ChunkSorter) {i : Nat} {c : MemoryChunk} (hm : m.WellFormed)
    (hc : m.chunks[i]? = some c) :
    (s.sortBy cmp m i).2.timesOpened i = m.timesOpened i + 1 ∧
      (s.sortBy cmp m i).2.timesReplaced i ≤ m.timesReplaced i + 1 ∧
      (∀ e, (s.sortBy cmp m i).1 = .error e → (s.sortBy cmp m i).2.content i = m.content i) ∧
      ∀ n, (s.sortBy cmp m i).1 = .ok n →
        ∃ rs, n = rs.length ∧ (s.sortBy cmp m i).2.content i = encode s.delimiter rs ∧
          (IsSort cmp (s.arrange cmp) → IsSorted cmp rs ∧
            rs.Perm (decode s.delimiter (m.readable i (max s.bufferSize 1)))) := by
  obtain ⟨rs, hrs⟩ : ∃ rs, rs = s.arrange cmp
      (decode s.delimiter (m.readable i (max s.bufferSize 1))) := ⟨_, rfl⟩
  have hopened : (m.setChunk i c.noteOpening).chunks[i]? = some c.noteOpening :=
    Memory.getElem?_setChunk_self hc
  have hlater := c.noteOpening.later_noteSaving s.delimiter rs
  have hreplaced : ((m.setChunk i c.noteOpening).setChunk i
      (c.noteOpening.noteSaving s.delimiter rs)).chunks[i]? =
        some (c.noteOpening.noteSaving s.delimiter rs) := Memory.getElem?_setChunk_self hopened
  have hsame := Memory.content_setChunk hc c.later_noteOpening.cell i
  have hsame' := Memory.content_setChunk hopened hlater.cell i
  rw [Memory.timesOpened_of_chunk hc, Memory.timesReplaced_of_chunk hc]
  have hcases := @sortBy_cases cmp m s i c hc
  simp only [← hrs] at hcases
  rcases hcases with ⟨e, hout⟩ | ⟨e, hout⟩ | hout <;> rw [hout] <;> dsimp only
  · rw [Memory.timesOpened_of_chunk hopened, Memory.timesReplaced_of_chunk hopened]
    exact ⟨rfl, Nat.le_succ _, fun _ _ => hsame, fun n hn => nomatch hn⟩
  · rw [Memory.timesOpened_of_chunk hreplaced, Memory.timesReplaced_of_chunk hreplaced]
    exact ⟨rfl, Nat.le_refl _, fun _ _ => hsame'.trans hsame, fun n hn => nomatch hn⟩
  · have hstored := (Memory.chunks_setContent _ i (encode s.delimiter rs)).symm ▸ hreplaced
    rw [Memory.timesOpened_of_chunk hstored, Memory.timesReplaced_of_chunk hstored]
    refine ⟨rfl, Nat.le_refl _, ?_, ?_⟩
    · intro e he
      contradiction
    · intro n hn
      have hwell := (Memory.later_setChunk hc c.later_noteOpening).wellFormed hm
      have hwell' := (Memory.later_setChunk hopened hlater).wellFormed hwell
      refine ⟨rs, (Except.ok.inj hn).symm, ?_, fun hsort => hrs ▸ ⟨(hsort _).2, (hsort _).1⟩⟩
      rw [Memory.content_setContent hwell', if_pos (Memory.sharesCell_self hreplaced)]

/-! ## Both phases -/

/-- The outcome of a chunk is that of its own sort. -/
theorem outcome_of_apart (h : Apart m chunks) (schedule : List Nat) {k i : Nat}
    (hk : chunks[k]? = some i) :
    (s.sortChunksIn cmp schedule m chunks).1[k]? = some (s.chunkSorter.sortBy cmp m i).1 :=
  getElem?_sortChunksIn.2 ⟨i, (agreesAt_atEnd h schedule hk).1⟩

/-- After the first phase a chunk is as its own sort leaves it. -/
theorem agreesAt_sortChunksIn (h : Apart m chunks) (schedule : List Nat) {i : Nat}
    (hi : i ∈ chunks) :
    (s.chunkSorter.sortBy cmp m i).2.AgreesAt (s.sortChunksIn cmp schedule m chunks).2 i := by
  obtain ⟨k, hk⟩ := List.mem_iff_getElem?.1 hi
  exact (agreesAt_atEnd h schedule hk).2

/-- After the first phase every chunk is there. -/
theorem exists_chunk_sortChunksIn (h : Apart m chunks) (schedule : List Nat) {i : Nat}
    (hi : i ∈ chunks) : ∃ c, (s.sortChunksIn cmp schedule m chunks).2.chunks[i]? = some c := by
  obtain ⟨c₀, hc₀⟩ := h.chunk i hi
  have hruns : RunsAlone s cmp m chunks (s.atEnd cmp schedule m chunks) :=
    runsAlone_runSchedule h _
  obtain ⟨c, hc, -⟩ := hruns.later.exists_chunk hc₀
  exact ⟨c, hc⟩

/-- After the first phase every chunk has been opened once. -/
theorem timesOpened_sortChunksIn (h : Apart m chunks) (schedule : List Nat) {i : Nat}
    (hi : i ∈ chunks) :
    (s.sortChunksIn cmp schedule m chunks).2.timesOpened i = m.timesOpened i + 1 := by
  obtain ⟨c, hc⟩ := h.chunk i hi
  rw [(agreesAt_sortChunksIn h schedule hi).timesOpened]
  exact (@sortBy_alone cmp m s.chunkSorter i c h.wellFormed hc).1

/-- After the first phase a chunk is opened as after its own sort. -/
theorem openRead_sortChunksIn (h : Apart m chunks) (schedule : List Nat) {i : Nat}
    (hi : i ∈ chunks) :
    ((s.sortChunksIn cmp schedule m chunks).2.openRead i).1 =
      ((s.chunkSorter.sortBy cmp m i).2.openRead i).1 := by
  obtain ⟨c, hc⟩ := @exists_chunk_sortChunksIn s cmp m chunks h schedule i hi
  have hagrees := @agreesAt_sortChunksIn s cmp m chunks h schedule i hi
  exact (hagrees.openRead (hagrees.chunk.symm.trans hc)).1

/-- The first failure of a sort of its own is told. -/
theorem firstFailure_of_failure (h : Apart m chunks) (schedule : List Nat) {k i : Nat}
    {e : StreamError} (hk : chunks[k]? = some i) (he : (s.chunkSorter.sortBy cmp m i).1 = .error e)
    (hbefore : ∀ j < k, ∀ i', chunks[j]? = some i' →
      ∃ n, (s.chunkSorter.sortBy cmp m i').1 = .ok n) :
    firstFailure 0 (s.sortChunksIn cmp schedule m chunks).1 = some (k, e) := by
  have hfirst : firstFailure 0 (s.sortChunksIn cmp schedule m chunks).1 = some (0 + k, e) := by
    refine firstFailure_eq_some ?_ ?_
    · rw [outcome_of_apart h schedule hk, he]
    · intro j hj
      have hlt : j < chunks.length := Nat.lt_trans hj (List.getElem?_eq_some_iff.1 hk).1
      have hget := List.getElem?_eq_getElem hlt
      obtain ⟨n, hn⟩ := hbefore j hj _ hget
      exact ⟨n, by rw [outcome_of_apart h schedule hget, hn]⟩
  rwa [Nat.zero_add] at hfirst

/-- No failure is told if every sort of its own succeeds. -/
theorem firstFailure_of_apart (h : Apart m chunks) (schedule : List Nat)
    (hok : ∀ i ∈ chunks, ∃ n, (s.chunkSorter.sortBy cmp m i).1 = .ok n) :
    firstFailure 0 (s.sortChunksIn cmp schedule m chunks).1 = none := by
  rw [firstFailure_eq_none_iff]
  intro o ho
  obtain ⟨k, hk⟩ := List.mem_iff_getElem?.1 ho
  obtain ⟨i, hi⟩ := getElem?_sortChunksIn.1 hk
  obtain ⟨hchunk, -⟩ := ended_of_mem_atEnd hi
  obtain ⟨n, hn⟩ := hok i (List.mem_of_getElem? hchunk)
  rw [outcome_of_apart h schedule hchunk, hn, Option.some.injEq] at hk
  exact ⟨n, hk.symm⟩

/-- **The whole sort changes no content after the first phase** and replaces no chunk. -/
theorem content_sortIn (s : Sorter) (cmp : Record → Record → Ordering) (m : Memory)
    (chunks : List Nat) (schedule : List Nat) (output : ByteSink) (j : Nat) :
    let sorted := (s.sortChunksIn cmp schedule m chunks).2
    let result := s.sortIn cmp schedule m chunks output
    result.store.content j = sorted.content j ∧
      result.store.timesReplaced j = sorted.timesReplaced j := by
  intro sorted result
  refine @sortIn_induction _ _ _ _ s cmp chunks output
    (fun m' => m'.content j = sorted.content j ∧ m'.timesReplaced j = sorted.timesReplaced j)
    ?_ schedule m ⟨rfl, rfl⟩
  intro m' i _ h
  obtain ⟨hcontent, hreplaced⟩ := m'.content_openRead i j
  exact ⟨hcontent.trans h.1, hreplaced.trans h.2⟩

/-- The chunks of a list that share nothing are all different. -/
theorem Apart.nodup (h : Apart m chunks) : chunks.Nodup := by
  refine List.Pairwise.imp_of_mem ?_ h.apart
  intro i j hi _ hij
  obtain ⟨c, hc⟩ := h.chunk i hi
  exact Memory.ne_of_sharesCell_eq_false hc hij

/-- The second phase up to **the first chunk that cannot be opened again** after its own sort. -/
theorem refusal_of_apart (h : Apart m chunks) (schedule : List Nat) {k i : Nat} {e : StreamError}
    (hk : chunks[k]? = some i)
    (he : ((s.chunkSorter.sortBy cmp m i).2.openRead i).1 = .error e)
    (hbefore : ∀ j < k, ∀ i', chunks[j]? = some i' →
      ∃ source, ((s.chunkSorter.sortBy cmp m i').2.openRead i').1 = .ok source) :
    let opened := s.openChunks 0 (s.sortChunksIn cmp schedule m chunks).2 chunks
    opened.1 = .error (.chunkOpen k e) ∧
      ∀ j i', chunks[j]? = some i' →
        opened.2.timesOpened i' = m.timesOpened i' + if j ≤ k then 2 else 1 := by
  intro opened
  obtain ⟨sorted, hsorted⟩ : ∃ sorted, sorted = (s.sortChunksIn cmp schedule m chunks).2 := ⟨_, rfl⟩
  have hexists : ∀ i ∈ chunks, ∃ c, sorted.chunks[i]? = some c := by
    intro i hi
    exact hsorted ▸ exists_chunk_sortChunksIn h schedule hi
  have hsame : ∀ i ∈ chunks, (sorted.openRead i).1 =
      ((s.chunkSorter.sortBy cmp m i).2.openRead i).1 := by
    intro i hi
    exact hsorted ▸ openRead_sortChunksIn h schedule hi
  have hcount : ∀ i ∈ chunks, sorted.timesOpened i = m.timesOpened i + 1 := by
    intro i hi
    exact hsorted ▸ timesOpened_sortChunksIn h schedule hi
  obtain ⟨herror, hafter⟩ := s.openChunks_of_refusal 0 sorted h.nodup hexists hk
    ((hsame i (List.mem_of_getElem? hk)).trans he) (by
      intro j hj i' hi'
      rw [hsame i' (List.mem_of_getElem? hi')]
      exact hbefore j hj i' hi')
  rw [Nat.zero_add] at herror
  have hopened : opened = s.openChunks 0 sorted chunks := hsorted ▸ rfl
  rw [hopened]
  refine ⟨herror, ?_⟩
  intro j i' hj
  have hi' := List.mem_of_getElem? hj
  obtain ⟨hle, hlt⟩ := hafter j i' hj
  by_cases hjk : j ≤ k
  · obtain ⟨c, hc⟩ := hexists i' hi'
    rw [if_pos hjk, (hle hjk).timesOpened, Memory.timesOpened_openRead hc, hcount i' hi']
  · rw [if_neg hjk, (hlt (Nat.lt_of_not_le hjk)).timesOpened, hcount i' hi']

/-- **Failures before any output**, where the chunks share nothing and whatever the schedule says. With
`own i` for the sort of chunk `i` alone:

* every chunk is left as its own sort leaves it, and is replaced at most once and only while the chunks
  are sorted;
* the first failed sort of its own is told, no chunk is opened again, and the output is untouched;
* if there is none, the first chunk that cannot be opened again is told, those behind it are not opened
  again, and the output is untouched. -/
theorem sortIn_of_apart (s : Sorter) (cmp : Record → Record → Ordering) (m : Memory)
    (chunks : List Nat) (h : Apart m chunks) (schedule : List Nat) (output : ByteSink) :
    let own := fun i => s.chunkSorter.sortBy cmp m i
    let sorted := (s.sortChunksIn cmp schedule m chunks).2
    let result := s.sortIn cmp schedule m chunks output
    (∀ i ∈ chunks, (own i).2.AgreesAt sorted i ∧
      result.store.content i = (own i).2.content i ∧
      result.store.timesReplaced i = sorted.timesReplaced i ∧
      sorted.timesReplaced i ≤ m.timesReplaced i + 1 ∧
      (∀ e, (own i).1 = .error e → (own i).2.content i = m.content i) ∧
      ∀ n, (own i).1 = .ok n →
        ∃ rs, n = rs.length ∧ (own i).2.content i = encode s.delimiter rs ∧
          (IsSort cmp (s.arrange cmp) → IsSorted cmp rs ∧
            rs.Perm (decode s.delimiter (m.readable i (max s.bufferSize 1))))) ∧
    (∀ k i e, chunks[k]? = some i → (own i).1 = .error e →
      (∀ j < k, ∀ i', chunks[j]? = some i' → ∃ n, (own i').1 = .ok n) →
      result.outcome = .error (.chunkSort k e) ∧ result.output = output ∧
        ∀ i' ∈ chunks, (own i').2.AgreesAt result.store i' ∧
          result.store.timesOpened i' = m.timesOpened i' + 1) ∧
    ((∀ i ∈ chunks, ∃ n, (own i).1 = .ok n) →
      ∀ k i e, chunks[k]? = some i → ((own i).2.openRead i).1 = .error e →
        (∀ j < k, ∀ i', chunks[j]? = some i' → ∃ source, ((own i').2.openRead i').1 = .ok source) →
        result.outcome = .error (.chunkOpen k e) ∧ result.output = output ∧
          ∀ j i', chunks[j]? = some i' →
            result.store.timesOpened i' = m.timesOpened i' + if j ≤ k then 2 else 1) := by
  intro own sorted result
  refine ⟨?_, ?_, ?_⟩
  · intro i hi
    obtain ⟨c, hc⟩ := h.chunk i hi
    have hagrees : (own i).2.AgreesAt sorted i := agreesAt_sortChunksIn h schedule hi
    obtain ⟨-, hreplaced, hfail, hok⟩ := @sortBy_alone cmp m s.chunkSorter i c h.wellFormed hc
    obtain ⟨hcontent, htimes⟩ := s.content_sortIn cmp m chunks schedule output i
    refine ⟨hagrees, hcontent.trans hagrees.content, htimes, ?_, hfail, hok⟩
    rw [hagrees.timesReplaced]
    exact hreplaced
  · intro k i e hk he hbefore
    have hresult : result = ⟨.error (.chunkSort k e), sorted, output⟩ :=
      mergeChunks_of_failure (firstFailure_of_failure h schedule hk he hbefore)
    rw [hresult]
    refine ⟨rfl, rfl, ?_⟩
    intro i' hi'
    exact ⟨agreesAt_sortChunksIn h schedule hi', timesOpened_sortChunksIn h schedule hi'⟩
  · intro hok k i e hk he hbefore
    obtain ⟨herror, hcount⟩ := refusal_of_apart h schedule hk he hbefore
    have hresult : result = ⟨.error (.chunkOpen k e), _, output⟩ :=
      mergeChunks_of_refusal (firstFailure_of_apart h schedule hok) (Prod.ext herror rfl)
    rw [hresult]
    exact ⟨rfl, rfl, hcount⟩

/-- A memory of three chunks that share nothing. The first one can be sorted, the second one cannot be
opened, and a replacement of the third one cannot be committed. -/
def failingMemory : Memory :=
  ((({} : Memory).add [98, 10, 97] [.serve [.upTo 1]] []).add [99] [.refuse (.system .noEntry)]
    []).add [100, 10] [] [{ commitError := some (.system .busy) }]

/-- The failure of the second chunk is told, although the third one fails before it, and nothing is
offered to the output. -/
theorem sortIn_of_apart_failingMemory :
    (({} : Sorter).sortIn Record.byteOrder [2, 2, 2, 1, 0] failingMemory [0, 1, 2] {}).outcome =
        .error (.chunkSort 1 (.system .noEntry)) ∧
      (({} : Sorter).sortIn Record.byteOrder [2, 2, 2, 1, 0] failingMemory [0, 1, 2] {}).output = {} := by
  have hapart : Apart failingMemory [0, 1, 2] := by
    refine ⟨((Memory.wellFormed_empty.add _ _ _).add _ _ _).add _ _ _, ?_, by decide⟩
    intro i hi
    simp only [List.mem_cons, List.not_mem_nil, or_false] at hi
    rcases hi with rfl | rfl | rfl <;> exact ⟨_, rfl⟩
  have hfirst : ∃ n,
      (({} : Sorter).chunkSorter.sortBy Record.byteOrder failingMemory 0).1 = .ok n := by
    have hfresh : (({} : Sorter).chunkSorter.reader
        { data := failingMemory.content 0, plan := [.upTo 1] }).Fresh := ⟨rfl, rfl, rfl⟩
    have hok := (hfresh.drain_of_harmless (by decide)).2
    rw [ChunkSorter.sortBy, ChunkSorter.load_of_serve rfl rfl, hok]
    refine ⟨_, congrArg Prod.fst (ChunkSorter.save_of_none rfl ?_)⟩
    rw [MemoryChunk.saveError?, saveRecords_of_harmless (by decide) fun e => List.not_mem_nil]
    rfl
  have hresult := (sortIn_of_apart {} Record.byteOrder failingMemory [0, 1, 2] hapart [2, 2, 2, 1, 0]
    {}).2.1 1 1 _ rfl rfl ?_
  · exact ⟨hresult.1, hresult.2.1⟩
  intro j hj i' hi'
  obtain rfl : j = 0 := by omega
  obtain rfl : 0 = i' := by simpa using hi'
  exact hfirst

end Sorter

end RecordSort
