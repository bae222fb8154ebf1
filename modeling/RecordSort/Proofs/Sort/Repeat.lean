import RecordSort.Proofs.Sort.Failures
import RecordSort.Proofs.Sort.WholeSort

/-! # A sort that is made again

A sort may fail at any point, with some of its chunks sorted already and others not. Since every chunk then
holds its first content or the records of it in order, making the sort again gives what it would have given
at once.

* **`Sorter.Sorts`** — the delimiter that a sorter uses, and that it puts records in order.
* **`Sorter.LoadsWhole`** — no worker of a run takes a part of a content for the whole.
* **`content_sortIn_of_loadsWhole`** — what any run leaves in the chunks.
* **`Memory.Restores`**, **`ByteSink.Reliable`** — where nothing fails.
* **`mergeChunks_of_inOrder`**, **`sortIn_of_inOrder_or_eq`** — a run in which nothing fails, on chunks
  some of which have been sorted before.
* **`sortIn_again`** — the second run. -/

namespace RecordSort

/-- A sink that **takes up all** that it is offered, and is flushed without a failure. -/
structure ByteSink.Reliable (s : ByteSink) : Prop where
  plan : Harmless s.plan
  flushPlan : ∀ e, Transfer.fail e ∉ s.flushPlan

/-- Putting records in order a second time changes nothing. -/
theorem inOrder_inOrder (d : UInt8) (cmp : Record → Record → Ordering) [Std.TransCmp cmp]
    (content : Bytes) : inOrder d cmp (inOrder d cmp content) = inOrder d cmp content := by
  rw [inOrder, decode_inOrder, sortRecords_of_isSorted (isSorted_sortRecords _)]
  rfl

namespace Sorter

/-- The sorter uses the delimiter `d` and **puts records in order**. -/
structure Sorts (d : UInt8) (cmp : Record → Record → Ordering) (s : Sorter) : Prop where
  delimiter : s.delimiter = d
  arrange : IsSort cmp (s.arrange cmp)

/-- **Every chunk is loaded to its end** in the steps of a schedule: whenever a worker loads its chunk, all
bytes of the chunk are handed out before its reader is told that there are no more, or the load fails. -/
def LoadsWhole (s : Sorter) (cmp : Record → Record → Ordering) (w : MemoryWorkshop) :
    List Nat → Prop
  | [] => True
  | k :: schedule =>
    (∀ i, w.workers[k]? = some (i, .waiting) → s.chunkSorter.LoadsWhole w.store i) ∧
      s.LoadsWhole cmp (s.advance cmp w k) schedule

variable {s : Sorter} {d : UInt8} {cmp : Record → Record → Ordering} {m m' : Memory}
  {chunks : List Nat} {w : MemoryWorkshop} {schedule : List Nat}

/-! ## Any run -/

section Run

variable [Std.TransCmp cmp]

/-- The invariant holds after the steps of a schedule in which every chunk is loaded to its end. -/
theorem sortsInPlace_runSchedule (hs : s.Sorts d cmp) (hm : m.WellFormed)
    (hchunks : ∀ i ∈ chunks, ∃ c, m.chunks[i]? = some c)
    (hties : ∀ i ∈ chunks, NoTies cmp (decode d (m.content i)))
    (hwhole : s.LoadsWhole cmp w schedule) (h : SortsInPlace d cmp m chunks w) :
    SortsInPlace d cmp m chunks (s.runSchedule cmp w schedule) := by
  obtain ⟨rfl, hsort⟩ := hs
  induction schedule generalizing w with
  | nil => exact h
  | cons k rest ih =>
    obtain ⟨hfirst, hrest⟩ := hwhole
    rw [runSchedule_cons]
    refine ih hrest ?_
    cases hk : w.workers[k]? with
    | none => rw [advance_of_none hk]; exact h
    | some worker =>
      obtain ⟨i, progress⟩ := worker
      have hi := (h.workers _ (List.mem_of_getElem? hk)).1
      rw [advance_of_getElem? hk]
      refine h.step_of_loadsWhole hm hsort (hchunks i hi) (hties i hi) ?_ hk
      rintro rfl
      exact hfirst i hk

/-- **After any run every chunk holds its first content or the records of it in order**, whatever has
failed and whatever the outcome is, and no chunk is gone. -/
theorem content_sortIn_of_loadsWhole (hs : s.Sorts d cmp) (hm : m.WellFormed)
    (hchunks : ∀ i ∈ chunks, ∃ c, m.chunks[i]? = some c)
    (hties : ∀ i ∈ chunks, NoTies cmp (decode d (m.content i)))
    (hwhole : s.LoadsWhole cmp (openWorkshop m chunks) (schedule ++ oneByOne 0 chunks.length))
    (output : ByteSink) :
    m.Later (s.sortIn cmp schedule m chunks output).store ∧
      ∀ i, (s.sortIn cmp schedule m chunks output).store.content i = m.content i ∨
        (s.sortIn cmp schedule m chunks output).store.content i = inOrder d cmp (m.content i) := by
  have hplace : SortsInPlace d cmp m chunks (s.atEnd cmp schedule m chunks) :=
    sortsInPlace_runSchedule hs hm hchunks hties hwhole (SortsInPlace.openWorkshop d cmp m chunks)
  constructor
  · refine sortIn_induction (P := fun m' => m.Later m') ?_ hplace.later
    intro m' i _ h
    exact h.trans (m'.later_openRead i)
  · intro i
    rw [(s.content_sortIn cmp m chunks schedule output i).1]
    exact hplace.content i

/-- If no plan cuts a reader short, every chunk is loaded to its end. -/
theorem loadsWhole_of_sortable (hs : s.Sorts d cmp) (hm : Sortable d cmp m chunks)
    (h : SortsInPlace d cmp m chunks w) (schedule : List Nat) : s.LoadsWhole cmp w schedule := by
  obtain ⟨rfl, hsort⟩ := hs
  induction schedule generalizing w with
  | nil => trivial
  | cons k rest ih =>
    refine ⟨fun i hk => h.loadsWhole hm hk, ih ?_⟩
    cases hk : w.workers[k]? with
    | none => rw [advance_of_none hk]; exact h
    | some worker => rw [advance_of_getElem? hk]; exact h.step hm hsort hk

end Run

end Sorter

/-! ## A run in which nothing fails -/

/-- The memory `m'` **holds the contents of `m`** in the chunks of a list, and none of its operations on
them fails for good. -/
structure Memory.Restores (chunks : List Nat) (m m' : Memory) : Prop where
  wellFormed : m'.WellFormed
  reliable : m'.AllReliable chunks
  content : ∀ i ∈ chunks, m'.content i = m.content i

namespace Sorter

variable {s : Sorter} {d : UInt8} {cmp : Record → Record → Ordering} {m m' : Memory}
  {chunks : List Nat} [Std.TransCmp cmp]

/-- **After the chunks have been sorted**, reliable chunks are opened and merged: the output gets the stable
sort of all their records, and the chunks stay as they are. -/
theorem mergeChunks_of_inOrder (s : Sorter) {sorted : List (Except StreamError Nat) × Memory}
    (hchunks : m.AllReliable chunks) (hlater : m.Later sorted.2)
    (hnone : firstFailure 0 sorted.1 = none)
    (hsorted : ∀ i ∈ chunks, IsSorted cmp (decode s.delimiter (sorted.2.content i)))
    {output : ByteSink} (houtput : output.Reliable) :
    let records := sortRecords cmp (chunks.flatMap fun i => decode s.delimiter (sorted.2.content i))
    let result := s.mergeChunks cmp chunks output sorted
    result.outcome = .ok records.length ∧
      result.output.contents = output.contents ++ encode s.delimiter records ∧
      ∀ i, result.store.content i = sorted.2.content i := by
  intro records result
  obtain ⟨readers, hopened, hsame, hoks, hmap⟩ := s.openChunks_of_reliable hchunks hlater 0
  have hinOrder : ∀ r ∈ readers, IsSorted cmp (drain r).records := by
    intro r hr
    have hmem : (drain r).records ∈ readers.map fun r => (drain r).records := List.mem_map_of_mem hr
    rw [hmap] at hmem
    obtain ⟨i, hi, hrecords⟩ := List.mem_map.1 hmem
    rw [← hrecords]
    exact hsorted i hi
  obtain ⟨hcount, hwritten⟩ :=
    s.mergeInto_of_isSorted hoks hinOrder houtput.plan houtput.flushPlan
  have hall : (readers.flatMap fun r => (drain r).records) =
      chunks.flatMap fun i => decode s.delimiter (sorted.2.content i) := by
    rw [List.flatMap_def, hmap, ← List.flatMap_def]
  rw [hall] at hcount hwritten
  have hresult : result = _ := mergeChunks_of_readers hnone (Prod.ext hopened rfl)
  rw [hresult, hcount]
  exact ⟨rfl, hwritten, hsame⟩

/-- **A run in which nothing fails**, on chunks each of which holds its content in `m` or the records of it
in order, gives what it gives on the contents in `m`. -/
theorem sortIn_of_inOrder_or_eq (hs : s.Sorts d cmp) (hm' : m'.WellFormed)
    (hchunks : m'.AllReliable chunks)
    (hties : ∀ i ∈ chunks, NoTies cmp (decode d (m.content i)))
    (hcontent : ∀ i ∈ chunks,
      m'.content i = m.content i ∨ m'.content i = inOrder d cmp (m.content i))
    {output : ByteSink} (houtput : output.Reliable) (schedule : List Nat) :
    let records := sortRecords cmp (chunks.flatMap fun i => decode d (m.content i))
    let result := s.sortIn cmp schedule m' chunks output
    result.outcome = .ok records.length ∧
      result.output.contents = output.contents ++ encode d records ∧
      ∀ i ∈ chunks, result.store.content i = inOrder d cmp (m.content i) := by
  intro records result
  obtain ⟨rfl, hsort⟩ := hs
  have hties' : ∀ i ∈ chunks, NoTies cmp (decode s.delimiter (m'.content i)) := by
    intro i hi
    rcases hcontent i hi with heq | heq <;> rw [heq]
    · exact hties i hi
    · rw [decode_inOrder]
      exact (hties i hi).mono fun r hr => mem_sortRecords.1 hr
  obtain ⟨hlater, hnone, hafter⟩ := s.inOrder_sortChunksIn hsort hm' hchunks hties' schedule
  -- either content gives one content in order
  have hstore : ∀ i ∈ chunks, (s.sortChunksIn cmp schedule m' chunks).2.content i =
      inOrder s.delimiter cmp (m.content i) := by
    intro i hi
    rw [hafter i hi]
    rcases hcontent i hi with heq | heq <;> rw [heq]
    exact inOrder_inOrder _ _ _
  have hrecords : ∀ i ∈ chunks,
      decode s.delimiter ((s.sortChunksIn cmp schedule m' chunks).2.content i) =
        sortRecords cmp (decode s.delimiter (m.content i)) := by
    intro i hi
    rw [hstore i hi, decode_inOrder]
  obtain ⟨houtcome, hwritten, hsame⟩ := s.mergeChunks_of_inOrder hchunks hlater hnone
    (fun i hi => hrecords i hi ▸ isSorted_sortRecords _) houtput
  have hall : sortRecords cmp (chunks.flatMap fun i =>
      decode s.delimiter ((s.sortChunksIn cmp schedule m' chunks).2.content i)) = records := by
    rw [List.flatMap_def, List.map_congr_left hrecords, ← List.flatMap_def]
    exact sortRecords_flatMap chunks fun i => decode s.delimiter (m.content i)
  rw [hall] at houtcome hwritten
  refine ⟨houtcome, hwritten, ?_⟩
  intro i hi
  exact (hsame i).trans (hstore i hi)

/-! ## The second run -/

/-- **A sort can be made again.** After a first run in which anything may have failed, or nothing, a second
one in which nothing fails gives what a single one in which nothing fails gives on the first contents: it
succeeds with the same count, writes the same bytes and leaves the same contents. Both tell the number of all
records, write their stable sort and leave every content with its records in order. The three sorters may
ask for different numbers of bytes at a time. It is only assumed that no load of the first run is cut
short. -/
theorem sortIn_again (d : UInt8) (cmp : Record → Record → Ordering) [Std.TransCmp cmp]
    (first second single : Sorter) (hfirst : first.Sorts d cmp) (hsecond : second.Sorts d cmp)
    (hsingle : single.Sorts d cmp) (m : Memory) (hm : m.WellFormed) (chunks : List Nat)
    (hchunks : ∀ i ∈ chunks, ∃ c, m.chunks[i]? = some c)
    (hties : ∀ i ∈ chunks, NoTies cmp (decode d (m.content i))) (schedule : List Nat)
    (hwhole : first.LoadsWhole cmp (openWorkshop m chunks) (schedule ++ oneByOne 0 chunks.length))
    (output : ByteSink) (m₁ m₂ : Memory)
    (hm₁ : Memory.Restores chunks m m₁)
    (hm₂ : Memory.Restores chunks (first.sortIn cmp schedule m chunks output).store m₂)
    (output₁ output₂ : ByteSink) (houtput₁ : output₁.Reliable) (houtput₂ : output₂.Reliable)
    (schedule₁ schedule₂ : List Nat) :
    let once := single.sortIn cmp schedule₁ m₁ chunks output₁
    let again := second.sortIn cmp schedule₂ m₂ chunks output₂
    let records := sortRecords cmp (chunks.flatMap fun i => decode d (m.content i))
    once.outcome = .ok records.length ∧ again.outcome = once.outcome ∧
      once.output.contents = output₁.contents ++ encode d records ∧
      again.output.contents = output₂.contents ++ encode d records ∧
      ∀ i ∈ chunks, once.store.content i = inOrder d cmp (m.content i) ∧
        again.store.content i = once.store.content i := by
  intro once again records
  have hleft : ∀ i ∈ chunks,
      m₂.content i = m.content i ∨ m₂.content i = inOrder d cmp (m.content i) := by
    intro i hi
    rw [hm₂.content i hi]
    exact (content_sortIn_of_loadsWhole hfirst hm hchunks hties hwhole output).2 i
  have hkept : ∀ i ∈ chunks,
      m₁.content i = m.content i ∨ m₁.content i = inOrder d cmp (m.content i) := by
    intro i hi
    exact Or.inl (hm₁.content i hi)
  obtain ⟨honce, hwritten, hstore⟩ := sortIn_of_inOrder_or_eq hsingle hm₁.wellFormed hm₁.reliable
    hties hkept houtput₁ schedule₁
  obtain ⟨hagain, hwritten', hstore'⟩ := sortIn_of_inOrder_or_eq hsecond hm₂.wellFormed
    hm₂.reliable hties hleft houtput₂ schedule₂
  refine ⟨honce, hagain.trans honce.symm, hwritten, hwritten', ?_⟩
  intro i hi
  exact ⟨hstore i hi, (hstore' i hi).trans (hstore i hi).symm⟩

end Sorter

/-! ### A failure and a second run -/

namespace Memory

/-- The same chunks without their scripts, so that nothing fails any more. -/
def unscripted (m : Memory) : Memory :=
  { m with chunks := m.chunks.map fun c => { cell := c.cell } }

/-- Without scripts the contents are the same. -/
theorem content_unscripted (m : Memory) (i : Nat) : m.unscripted.content i = m.content i := by
  rw [content, content, unscripted, List.getElem?_map]
  cases m.chunks[i]? <;> rfl

/-- Without scripts a memory holds its contents and fails in nothing. -/
theorem restores_unscripted {m : Memory} (hm : m.WellFormed) {chunks : List Nat}
    (h : ∀ i ∈ chunks, ∃ c, m.chunks[i]? = some c) : m.Restores chunks m.unscripted where
  wellFormed c hc := by
    obtain ⟨c₀, hc₀, rfl⟩ := List.mem_map.1 hc
    exact hm c₀ hc₀
  reliable i hi := by
    obtain ⟨c, hc⟩ := h i hi
    refine ⟨{ cell := c.cell }, ?_, fun o ho => absurd ho List.not_mem_nil,
      fun r hr => absurd hr List.not_mem_nil⟩
    rw [unscripted, List.getElem?_map, hc]
    rfl
  content i _ := m.content_unscripted i

/-- Three chunks, two of which share a content. The first one is read in part and then in full, and can be
written only in part; the last one cannot be read to its end. -/
def stubborn : Memory :=
  ((({} : Memory).add [98, 10, 97] [.serve [.upTo 2]] [{ plan := [.upTo 1, .upTo 0] }]).share 0 []
    []).add [99, 10, 97] [.serve [.upTo 1, .fail (.reported .timedOut "late")]] []

/-- Every chunk has its content in a cell. -/
theorem wellFormed_stubborn : stubborn.WellFormed :=
  ((wellFormed_empty.add _ _ _).share _ _ _).add _ _ _

/-- The chunks can be sorted in place. -/
theorem sortable_stubborn : Sortable newline Record.byteOrder stubborn [0, 1, 2] where
  wellFormed := wellFormed_stubborn
  chunk := by
    intro i hi
    simp only [List.mem_cons, List.not_mem_nil, or_false] at hi
    rcases hi with rfl | rfl | rfl <;> exact ⟨_, rfl⟩
  reads := by
    intro i hi c hc plan hplan
    simp only [List.mem_cons, List.not_mem_nil, or_false] at hi
    rcases hi with rfl | rfl | rfl <;> obtain rfl := Option.some.inj hc <;>
      simp at hplan <;> rw [hplan] <;> decide
  noTies i _ a _ b _ hab := Record.eq_of_byteOrder_eq hab

end Memory

/-- The first run leaves one of the contents sorted and the other one as it was; the second run gives what
a single one gives, with all six records. -/
theorem Sorter.sortIn_again_stubborn :
    let first := ({} : Sorter).sortIn Record.byteOrder [2, 1, 0] Memory.stubborn [0, 1, 2] {}
    let once := ({ bufferSize := 0 } : Sorter).sortIn Record.byteOrder [] Memory.stubborn.unscripted
      [0, 1, 2] {}
    let again := ({ bufferSize := 1 } : Sorter).sortIn Record.byteOrder [1] first.store.unscripted
      [0, 1, 2] {}
    again.outcome = once.outcome ∧ again.output.contents = once.output.contents ∧
      again.outcome = .ok 6 ∧
      again.output.contents = [97, 10, 97, 10, 97, 10, 98, 10, 98, 10, 99, 10] := by
  intro first once again
  have hsorts : ∀ size, ({ bufferSize := size } : Sorter).Sorts newline Record.byteOrder :=
    fun size => ⟨rfl, isSort_sortRecords⟩
  have hm := Memory.sortable_stubborn
  have hwhole := loadsWhole_of_sortable (hsorts defaultCapacity) hm
    (SortsInPlace.openWorkshop newline Record.byteOrder Memory.stubborn [0, 1, 2])
    ([2, 1, 0] ++ oneByOne 0 3)
  have hlater : Memory.stubborn.Later first.store :=
    (content_sortIn_of_loadsWhole (hsorts _) hm.wellFormed hm.chunk hm.noTies hwhole {}).1
  have hleft : ∀ i ∈ [0, 1, 2], ∃ c, first.store.chunks[i]? = some c := by
    intro i hi
    obtain ⟨c, hc⟩ := hm.chunk i hi
    obtain ⟨c', hc', -⟩ := hlater.exists_chunk hc
    exact ⟨c', hc'⟩
  obtain ⟨honce, hagain, hwritten, hwritten', -⟩ :=
    sortIn_again newline Record.byteOrder {} { bufferSize := 1 } { bufferSize := 0 }
      (hsorts _) (hsorts _) (hsorts _) Memory.stubborn hm.wellFormed [0, 1, 2] hm.chunk hm.noTies
      [2, 1, 0] hwhole {} _ _
      (Memory.restores_unscripted hm.wellFormed hm.chunk)
      (Memory.restores_unscripted (hlater.wellFormed hm.wellFormed) hleft) {} {}
      ⟨harmless_nil, fun _ => List.not_mem_nil⟩ ⟨harmless_nil, fun _ => List.not_mem_nil⟩ [] [1]
  have hrecords : sortRecords Record.byteOrder
      ([0, 1, 2].flatMap fun i => decode newline (Memory.stubborn.content i)) =
        [[97], [97], [97], [98], [98], [99]] := by
    rw [show ([0, 1, 2].flatMap fun i => decode newline (Memory.stubborn.content i)) =
      [[98], [97], [98], [97], [99], [97]] by decide]
    simp +decide [sortRecords, List.mergeSort]
  rw [hrecords] at honce hwritten hwritten'
  exact ⟨hagain, hwritten'.trans hwritten.symm, hagain.trans honce, hwritten'⟩

end RecordSort
