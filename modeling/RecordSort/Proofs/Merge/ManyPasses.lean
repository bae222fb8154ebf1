import Mathlib.Algebra.GroupWithZero.Nat
import RecordSort.Proofs.Merge.SortedMerge
import RecordSort.Proofs.Record.Reading
import RecordSort.Proofs.Record.Writing

/-! # Merging in passes

Feeds in order may be merged in groups first, each into a stream of its own, and the streams be merged
afterwards. The groups are cut from the list of feeds as they stand, and records of equal rank keep the
order of their feeds in both passes, so the outcome is that of merging all feeds at once.

* **`InOrder`** — a feed that does not fail and whose records are in order and can be read back.
* **`merge_eq`** — merging such feeds is writing the stable sort of their records.
* **`MergeGroup`** — feeds that are merged first, with the transfers that write and read their stream.
* **`MergeGroup.inOrder_reader`** — the stream of a group is a feed in order again.
* **`merge_readers_eq`** — the second pass gives what one pass gives. -/

namespace RecordSort

variable {φ : Type} [RecordFeed φ] [FiniteFeed φ] {order : Record → Record → Ordering} {d : UInt8}
  {w : RecordWriter}

/-- A feed that does not fail and gives its records **in order**. None of them holds the delimiter. -/
structure InOrder (order : Record → Record → Ordering) (d : UInt8) (f : φ) : Prop where
  outcome : (drain f).outcome = .ok ()
  sorted : IsSorted order (drain f).records
  clean : ∀ r ∈ (drain f).records, d ∉ r

/-- The stable sort of the records of feeds, taken feed by feed. -/
def sortOf (order : Record → Record → Ordering) (feeds : List φ) : List Record :=
  sortRecords order (feeds.flatMap fun f => (drain f).records)

/-- No record of the sort holds the delimiter if none of the feeds' records does. -/
theorem not_mem_of_mem_sortOf {feeds : List φ} (h : ∀ f ∈ feeds, InOrder order d f) :
    ∀ r ∈ sortOf order feeds, d ∉ r := by
  intro r hr
  obtain ⟨f, hf, hrf⟩ := List.mem_flatMap.1 (mem_sortRecords.1 hr)
  exact (h f hf).clean r hrf

namespace RecordWriter

variable [Std.TransCmp order]

/-- **Merging feeds in order** is writing the stable sort of their records. -/
theorem merge_eq (w : RecordWriter) {feeds : List φ} (h : ∀ f ∈ feeds, InOrder order d f) :
    (w.merge order feeds).2.1 = (w.writeRecords (sortOf order feeds)).2 ∧
      (w.merge order feeds).1 =
        (w.writeRecords (sortOf order feeds)).1.map fun _ => (sortOf order feeds).length := by
  obtain ⟨hrecords, houtcome⟩ : (drain (Merger.ofFeeds order feeds)).records = sortOf order feeds ∧
      (drain (Merger.ofFeeds order feeds)).outcome = .ok () :=
    Merger.drain_ofFeeds (fun f hf => (h f hf).outcome) fun f hf => (h f hf).sorted
  obtain ⟨hwriter, hanswer⟩ := w.pour_eq (Merger.ofFeeds order feeds)
  rw [hrecords] at hwriter
  rw [hrecords, houtcome] at hanswer
  exact ⟨hwriter, hanswer⟩

/-- Into a harmless sink all records are merged. -/
theorem merge_of_harmless {feeds : List φ} (h : ∀ f ∈ feeds, InOrder order d f)
    (hplan : Harmless w.sink.plan) (hpolicy : w.policy = .split ∨ w.delimiter = d) :
    (w.merge order feeds).1 = .ok (sortOf order feeds).length ∧
      (w.merge order feeds).2.1.sink.contents =
        w.sink.contents ++ encode w.delimiter (sortOf order feeds) := by
  obtain ⟨hwriter, hanswer⟩ := w.merge_eq h
  have hok : (w.writeRecords (sortOf order feeds)).1 = .ok () := by
    apply writeRecords_of_harmless hplan
    refine hpolicy.imp_right fun hd => ?_
    rw [hd]
    exact not_mem_of_mem_sortOf h
  constructor
  · rw [hanswer, hok]
    rfl
  · rw [hwriter]
    exact contents_of_writeRecords (Prod.ext hok rfl)

end RecordWriter

/-! ## Groups -/

/-- Feeds that are **merged first**, into a stream of their own. It is written and read by transfers that
lose nothing. -/
structure MergeGroup (φ : Type) where
  /-- The feeds of the group. -/
  feeds : List φ
  /-- How the sink of the stream takes the bytes that it is offered. -/
  writes : List Transfer := []
  /-- What the writer of the stream does with a value that holds the delimiter. -/
  policy : DelimiterPolicy := .split
  /-- How the source of the stream hands out its bytes. -/
  reads : List Transfer := []
  /-- The capacity of the reader of the stream. -/
  capacity : Nat := defaultCapacity
  /-- The sink takes all bytes. -/
  harmlessWrites : Harmless writes := by decide
  /-- The source hands out all bytes. -/
  harmlessReads : Harmless reads := by decide

namespace MergeGroup

/-- Merges the feeds of the group into its stream. -/
def merge (g : MergeGroup φ) (order : Record → Record → Ordering) (d : UInt8) :
    Except StreamError Nat × RecordWriter × List φ :=
  ({ sink := { plan := g.writes }, delimiter := d, policy := g.policy } : RecordWriter).merge order
    g.feeds

/-- The reader of the stream. -/
def reader (order : Record → Record → Ordering) (d : UInt8) (g : MergeGroup φ) : RecordReader where
  source := { data := (g.merge order d).2.1.sink.contents, plan := g.reads }
  capacity := g.capacity
  delimiter := d

variable [Std.TransCmp order] {g : MergeGroup φ}

/-- The feeds of a group are merged, and their stream holds the stable sort of the records. -/
theorem contents_merge (h : ∀ f ∈ g.feeds, InOrder order d f) :
    (g.merge order d).1 = .ok (sortOf order g.feeds).length ∧
      (g.merge order d).2.1.sink.contents = encode d (sortOf order g.feeds) :=
  RecordWriter.merge_of_harmless h g.harmlessWrites (Or.inr rfl)

/-- **The stable sort is read back** from the stream of a group. -/
theorem records_reader (h : ∀ f ∈ g.feeds, InOrder order d f) :
    (drain (g.reader order d)).records = sortOf order g.feeds ∧
      (drain (g.reader order d)).outcome = .ok () := by
  have hfresh : (g.reader order d).Fresh := ⟨rfl, rfl, rfl⟩
  obtain ⟨hrecords, houtcome⟩ := hfresh.drain_of_harmless g.harmlessReads
  refine ⟨?_, houtcome⟩
  calc (drain (g.reader order d)).records
      = decode d (g.merge order d).2.1.sink.contents := hrecords
    _ = decode d (encode d (sortOf order g.feeds)) := by rw [(contents_merge h).2]
    _ = sortOf order g.feeds := decode_encode (not_mem_of_mem_sortOf h)

/-- The stream of a group is a feed in order again. -/
theorem inOrder_reader (h : ∀ f ∈ g.feeds, InOrder order d f) : InOrder order d (g.reader order d) := by
  obtain ⟨hrecords, houtcome⟩ := records_reader h
  refine ⟨houtcome, ?_, ?_⟩
  · rw [hrecords]
    exact isSorted_sortRecords _
  · rw [hrecords]
    exact not_mem_of_mem_sortOf h

/-- Sorting group by group beforehand changes nothing. -/
theorem sortOf_readers {groups : List (MergeGroup φ)}
    (h : ∀ g ∈ groups, ∀ f ∈ g.feeds, InOrder order d f) :
    sortOf order (groups.map (reader order d)) = sortOf order (groups.flatMap (·.feeds)) := by
  unfold sortOf
  calc sortRecords order ((groups.map (reader order d)).flatMap fun r => (drain r).records)
      = sortRecords order (groups.flatMap fun g => sortOf order g.feeds) := by
        rw [List.flatMap_map]
        refine congrArg (fun lists => sortRecords order (List.flatten lists)) ?_
        refine List.map_congr_left fun g hg => ?_
        exact (records_reader (h g hg)).1
    _ = sortRecords order (groups.flatMap fun g => g.feeds.flatMap fun f => (drain f).records) :=
        sortRecords_flatMap groups _
    _ = sortRecords order ((groups.flatMap (·.feeds)).flatMap fun f => (drain f).records) := by
        rw [List.flatMap_assoc]

end MergeGroup

/-- **Merging in passes is merging at once.** Feeds that do not fail, whose records are in order and hold
no delimiter, are cut into groups. Each group is merged into a stream of its own, and the readers of these
streams are merged, in the order of the groups. The first passes succeed, with as many records as the feeds
of the group have, and the last one has the outcome of merging all feeds at once and leaves the writer in
the same state, whatever its sink does. If the sink takes all bytes, all records are merged. -/
theorem RecordWriter.merge_readers_eq (order : Record → Record → Ordering) [Std.TransCmp order]
    (d : UInt8) (groups : List (MergeGroup φ)) (w : RecordWriter)
    (hok : ∀ g ∈ groups, ∀ f ∈ g.feeds, (drain f).outcome = .ok ())
    (hsorted : ∀ g ∈ groups, ∀ f ∈ g.feeds, IsSorted order (drain f).records)
    (hclean : ∀ g ∈ groups, ∀ f ∈ g.feeds, ∀ r ∈ (drain f).records, d ∉ r) :
    let readers := groups.map (MergeGroup.reader order d)
    let feeds := groups.flatMap (·.feeds)
    let count := fun feeds : List φ => (feeds.map fun f => (drain f).records.length).sum
    (∀ g ∈ groups, (g.merge order d).1 = .ok (count g.feeds)) ∧
      (w.merge order readers).1 = (w.merge order feeds).1 ∧
      (w.merge order readers).2.1 = (w.merge order feeds).2.1 ∧
      (Harmless w.sink.plan → w.policy = .split ∨ w.delimiter = d →
        (w.merge order readers).1 = .ok (count feeds) ∧
          (w.merge order readers).2.1.sink.contents =
            w.sink.contents ++ encode w.delimiter (sortOf order feeds)) := by
  intro readers feeds count
  have hinOrder : ∀ g ∈ groups, ∀ f ∈ g.feeds, InOrder order d f := by
    intro g hg f hf
    exact ⟨hok g hg f hf, hsorted g hg f hf, hclean g hg f hf⟩
  have hreaders : ∀ r ∈ readers, InOrder order d r := by
    intro r hr
    obtain ⟨g, hg, rfl⟩ := List.mem_map.1 hr
    exact MergeGroup.inOrder_reader (hinOrder g hg)
  have hfeeds : ∀ f ∈ feeds, InOrder order d f := by
    intro f hf
    obtain ⟨g, hg, hfg⟩ := List.mem_flatMap.1 hf
    exact hinOrder g hg f hfg
  have hcount : ∀ feeds : List φ, (sortOf order feeds).length = count feeds := by
    intro feeds
    rw [sortOf, length_sortRecords, List.length_flatMap]
  have hsame : sortOf order readers = sortOf order feeds := MergeGroup.sortOf_readers hinOrder
  obtain ⟨hwriter, houtcome⟩ := w.merge_eq hfeeds
  obtain ⟨hwriter', houtcome'⟩ := w.merge_eq hreaders
  rw [hsame] at hwriter' houtcome'
  refine ⟨?_, houtcome'.trans houtcome.symm, hwriter'.trans hwriter.symm, ?_⟩
  · intro g hg
    rw [(MergeGroup.contents_merge (hinOrder g hg)).1, hcount]
  · intro hplan hpolicy
    obtain ⟨hmerged, hcontents⟩ := merge_of_harmless hreaders hplan hpolicy
    rw [hsame] at hmerged hcontents
    exact ⟨hmerged.trans (congrArg Except.ok (hcount feeds)), hcontents⟩

/-- Records with the same first byte, and empty ones, come in the order of their feeds, also when these are
in different groups and a group without feeds lies between them. -/
theorem RecordWriter.merge_readers_eq_emptyGroup :
    let groups : List (MergeGroup Replay) :=
      [{ feeds := [.ofRecords [[], [97, 1]], .ofRecords [[97, 0]]], writes := [.upTo 1], capacity := 0 },
        { feeds := [] },
        { feeds := [.ofRecords [[], [97, 2], [98]]], reads := [.upTo 2] }]
    let merged := ({ sink := {} } : RecordWriter).merge Record.firstByteOrder
      (groups.map (MergeGroup.reader Record.firstByteOrder newline))
    merged.1 = .ok 6 ∧
      merged.2.1.sink.contents = [10, 10, 97, 1, 10, 97, 0, 10, 97, 2, 10, 98, 10] := by
  intro groups merged
  have hsorted : ∀ g ∈ groups, ∀ f ∈ g.feeds, IsSorted Record.firstByteOrder (drain f).records := by
    simp only [groups, List.mem_cons, List.not_mem_nil, or_false, forall_eq_or_imp, forall_eq,
      drain_ofRecords, IsSorted, false_implies, implies_true, true_and]
    decide
  obtain ⟨-, -, -, hharmless⟩ := merge_readers_eq Record.firstByteOrder newline groups { sink := {} }
    (by simp [groups, drain_ofRecords]) hsorted (by simp +decide [groups, drain_ofRecords])
  obtain ⟨hmerged, hcontents⟩ := hharmless harmless_nil (Or.inl rfl)
  constructor
  · refine hmerged.trans ?_
    simp [groups, drain_ofRecords]
  · refine hcontents.trans ?_
    simp +decide [groups, sortOf, drain_ofRecords, sortRecords, List.mergeSort]

end RecordSort
