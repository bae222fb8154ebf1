import RecordSort.Files.Path

/-! # Texts of paths

The directory in which the entry lies that a path names is given by a text of its own, which is part of the text
of the path. This file tells that the two agree: the text names the way to the entry without its last piece.

* **`intercalate_segments`**, **`segments_intercalate`** — taking a list apart and putting it together again.
* **`Path.solid`** — the pieces of a text that are not idle.
* **`Path.filter_folderText`** — the way that the text of the directory spells.
* **`Path.exists_start_of_folderText`** — a path begins with the text of its directory.
* **`Path.absolute_folderText`**, **`Path.holdsNul_folderText`** — what this says of the root and of characters of
  code 0. -/

namespace RecordSort

/-! ## Segments put together -/

section Intercalate

variable {α : Type} {d : α}

/-- Two rows of pieces are joined by one delimiter. -/
theorem intercalate_append {front back : List (List α)} (hfront : front ≠ []) (hback : back ≠ []) :
    [d].intercalate (front ++ back) = [d].intercalate front ++ d :: [d].intercalate back := by
  obtain ⟨second, others, rfl⟩ := List.exists_cons_of_ne_nil hback
  induction front with
  | nil => exact absurd rfl hfront
  | cons first front ih =>
    rcases front with - | ⟨next, front⟩
    · simp [List.intercalate_cons_cons]
    · rw [List.cons_append, List.cons_append, List.intercalate_cons_cons, ← List.cons_append,
        ih (List.cons_ne_nil _ _), List.intercalate_cons_cons, List.append_assoc, List.append_assoc,
        List.append_assoc]

variable [DecidableEq α] {xs : List α}

/-- **Segments put together** are the list. -/
theorem intercalate_segments (d : α) (xs : List α) : [d].intercalate (segments d xs) = xs := by
  induction xs with
  | nil => rfl
  | cons x xs ih =>
    obtain ⟨first, others, hsegments⟩ := List.exists_cons_of_ne_nil (segments_ne_nil d xs)
    by_cases hx : x = d
    · rw [hx, segments_cons_self, hsegments, List.intercalate_cons_cons, ← hsegments, ih]
      rfl
    · rw [segments_cons_of_ne d hx, hsegments, List.modifyHead_cons]
      rw [hsegments] at ih
      rcases others with - | ⟨second, others⟩
      · simpa using ih
      · rw [List.intercalate_cons_cons] at ih ⊢
        rw [List.cons_append, List.cons_append, ih]

/-- A piece before a delimiter is the first segment. -/
theorem segments_append (h : d ∉ xs) (rest : List α) :
    segments d (xs ++ d :: rest) = xs :: segments d rest := by
  induction xs with
  | nil => exact segments_cons_self d rest
  | cons x xs ih =>
    rw [List.mem_cons, not_or] at h
    rw [List.cons_append, segments_cons_of_ne d fun hx => h.1 hx.symm, ih h.2]
    rfl

/-- **Pieces that are put together** are the segments again. -/
theorem segments_intercalate {pieces : List (List α)} (hne : pieces ≠ [])
    (h : ∀ piece ∈ pieces, d ∉ piece) : segments d ([d].intercalate pieces) = pieces := by
  induction pieces with
  | nil => exact absurd rfl hne
  | cons first pieces ih =>
    have hfirst := h first List.mem_cons_self
    rcases pieces with - | ⟨second, pieces⟩
    · rw [List.intercalate_singleton]
      exact segments_of_not_mem hfirst
    · rw [List.intercalate_cons_cons, List.append_assoc, List.singleton_append,
        segments_append hfirst, ih (List.cons_ne_nil _ _) fun piece hp => h piece (List.mem_cons_of_mem _ hp)]

end Intercalate

/-- What is dropped from the start does not count behind the filter that it fails. -/
theorem filter_dropWhile_not {α : Type} (p : α → Bool) (l : List α) :
    (l.dropWhile p).filter (fun x => !p x) = l.filter fun x => !p x := by
  induction l with
  | nil => rfl
  | cons x l ih =>
    rcases hx : p x
    · rw [List.dropWhile_cons_of_neg (by simp [hx])]
    · rw [List.dropWhile_cons_of_pos hx, List.filter_cons_of_neg (by simp [hx])]
      exact ih

namespace Path

variable {text : String}

/-! ## Pieces that are not idle -/

/-- The pieces of a text that are **not idle**. -/
def solid (text : String) : List (List Char) := (RecordSort.segments '/' text.toList).filter (! isIdle ·)

/-- The piece of a path that a piece of a text spells. -/
def segmentOf (piece : List Char) : Segment := .ofText (String.ofList piece)

/-- Only a dot stays. -/
theorem segmentOf_eq_here_iff {piece : List Char} : segmentOf piece = .here ↔ piece = ['.'] := by
  have htext : String.ofList piece = "." ↔ piece = ['.'] :=
    ⟨fun h => by simpa using congrArg String.toList h, fun h => h ▸ rfl⟩
  rw [← htext]
  unfold segmentOf Segment.ofText
  split
  next h => exact ⟨fun _ => h, fun _ => rfl⟩
  next h =>
    refine ⟨fun hsegment => ?_, fun heq => absurd heq h⟩
    split at hsegment <;> cases hsegment

/-- The way that a text spells, where pieces that stay do not count, **is that of the pieces that are not
idle**. -/
theorem filter_segments (text : String) :
    (ofText text).segments.filter (· ≠ .here) = (solid text).map segmentOf := by
  unfold ofText solid
  dsimp only
  generalize RecordSort.segments '/' text.toList = pieces
  induction pieces with
  | nil => rfl
  | cons piece pieces ih =>
    by_cases hempty : piece = []
    · rw [List.filter_cons_of_neg (by simpa using hempty), List.filter_cons_of_neg (by simp [isIdle, hempty])]
      exact ih
    rw [List.filter_cons_of_pos (by simpa using hempty), List.map_cons]
    by_cases hdot : piece = ['.']
    · have hhere : Segment.ofText (String.ofList piece) = .here := segmentOf_eq_here_iff.2 hdot
      rw [List.filter_cons_of_neg (by simpa using hhere), List.filter_cons_of_neg (by simp [isIdle, hdot])]
      exact ih
    · have hhere : Segment.ofText (String.ofList piece) ≠ .here := fun h => hdot (segmentOf_eq_here_iff.1 h)
      rw [List.filter_cons_of_pos (by simpa using hhere), ih,
        List.filter_cons_of_pos (by simp [isIdle, hempty, hdot])]
      rfl

/-! ## The text of the directory -/

section FolderText

variable {last : List Char} {before : List (List Char)}

/-- Where the last piece that is not idle stands, and what stands before it. -/
theorem solid_eq_concat
    (h : (RecordSort.segments '/' text.toList).reverse.dropWhile isIdle = last :: before) :
    solid text = (before.filter (! isIdle ·)).reverse ++ [last] := by
  have hlast : isIdle last = false := by
    have := List.head?_dropWhile_not isIdle (RecordSort.segments '/' text.toList).reverse
    rw [h] at this
    simpa using this
  have hfilter := filter_dropWhile_not isIdle (RecordSort.segments '/' text.toList).reverse
  rw [h, List.filter_cons_of_pos (by simp [hlast]), List.filter_reverse] at hfilter
  have hreverse := congrArg List.reverse hfilter
  rw [List.reverse_reverse, List.reverse_cons] at hreverse
  exact hreverse.symm

/-- The pieces of the text of the directory are those before the last one. -/
theorem solid_folderText
    (h : (RecordSort.segments '/' text.toList).reverse.dropWhile isIdle = last :: before) :
    solid (folderText text) = (before.filter (! isIdle ·)).reverse := by
  rw [← filter_dropWhile_not isIdle before]
  unfold folderText
  rw [h]
  dsimp only
  rcases hpieces : before.dropWhile isIdle with - | ⟨piece, pieces⟩
  · dsimp only
    split <;> decide
  dsimp only
  have hmem {p : List Char} (hp : p ∈ (piece :: pieces).reverse) :
      p ∈ RecordSort.segments '/' text.toList := by
    rw [List.mem_reverse, ← hpieces] at hp
    have hbefore := List.mem_cons_of_mem last (List.dropWhile_subset _ hp)
    rw [← h] at hbefore
    exact List.mem_reverse.1 (List.dropWhile_subset _ hbefore)
  unfold solid
  rw [String.toList_ofList, segments_intercalate (by simp) fun p hp => not_mem_of_mem_segments (hmem hp),
    List.filter_reverse]

end FolderText

/-- A text with a piece that is not idle has a last one. -/
theorem exists_of_solid_ne_nil (h : solid text ≠ []) :
    ∃ last before, (RecordSort.segments '/' text.toList).reverse.dropWhile isIdle = last :: before := by
  rcases hdrop : (RecordSort.segments '/' text.toList).reverse.dropWhile isIdle with - | ⟨last, before⟩
  · have hfilter := filter_dropWhile_not isIdle (RecordSort.segments '/' text.toList).reverse
    rw [hdrop, List.filter_reverse] at hfilter
    exact absurd (List.reverse_eq_nil_iff.1 hfilter.symm) h
  · exact ⟨last, before, rfl⟩

/-- A text that spells a piece that does not stay has a piece that is not idle. -/
theorem solid_ne_nil {front : List Segment} {last : Segment}
    (h : (ofText text).segments = front ++ [last]) (hlast : last ≠ .here) : solid text ≠ [] := by
  have hsolid := filter_segments text
  rw [h, List.filter_append, List.filter_cons_of_pos (by simpa using hlast), List.filter_nil] at hsolid
  intro hnil
  rw [hnil] at hsolid
  simp at hsolid

/-- No piece of a text spells a slash. -/
theorem slash_not_mem_segments (text : String) : .slash ∉ (ofText text).segments := by
  intro hslash
  obtain ⟨piece, -, hpiece⟩ := List.mem_map.1 hslash
  unfold Segment.ofText at hpiece
  split at hpiece
  · cases hpiece
  · split at hpiece <;> cases hpiece

/-- **The text of the directory spells the way to the entry without its last piece**, where pieces that stay do
not count. -/
theorem filter_folderText {front : List Segment} {last : Segment}
    (h : (ofText text).segments = front ++ [last]) (hlast : last ≠ .here) :
    (ofText (folderText text)).segments.filter (· ≠ .here) = front.filter (· ≠ .here) := by
  have hsolid := filter_segments text
  rw [h, List.filter_append, List.filter_cons_of_pos (by simpa using hlast), List.filter_nil] at hsolid
  obtain ⟨piece, before, hpieces⟩ := exists_of_solid_ne_nil (solid_ne_nil h hlast)
  rw [solid_eq_concat hpieces, List.map_append, List.map_cons, List.map_nil] at hsolid
  rw [filter_segments, solid_folderText hpieces]
  exact (List.append_inj_left' hsolid rfl).symm

section Start

variable {last piece : List Char} {before pieces : List (List Char)}

/-- **A path begins with the text of its directory**, if there is more than the last piece. -/
theorem exists_start_of_folderText
    (h : (RecordSort.segments '/' text.toList).reverse.dropWhile isIdle = last :: before)
    (hbefore : before.dropWhile isIdle = piece :: pieces) :
    ∃ c front back, (folderText text).toList = c :: front ∧ text.toList = c :: front ++ '/' :: back := by
  have hpiece : piece ≠ [] := by
    have := List.head?_dropWhile_not isIdle before
    rw [hbefore] at this
    rintro rfl
    simp [isIdle] at this
  obtain ⟨idle, hidle⟩ : ∃ idle, before = idle ++ piece :: pieces :=
    ⟨before.takeWhile isIdle, by rw [← hbefore, List.takeWhile_append_dropWhile]⟩
  obtain ⟨trailing, htrailing⟩ : ∃ trailing,
      (RecordSort.segments '/' text.toList).reverse = trailing ++ last :: before :=
    ⟨_, by rw [← h, List.takeWhile_append_dropWhile]⟩
  have hraw : RecordSort.segments '/' text.toList =
      (piece :: pieces).reverse ++ (idle.reverse ++ last :: trailing.reverse) := by
    rw [← List.reverse_reverse (RecordSort.segments '/' text.toList), htrailing, hidle]
    simp
  have htext : text.toList = ['/'].intercalate (piece :: pieces).reverse ++
      '/' :: ['/'].intercalate (idle.reverse ++ last :: trailing.reverse) := by
    rw [← intercalate_append (by simp) (by simp), ← hraw, intercalate_segments]
  have hstart : ['/'].intercalate (piece :: pieces).reverse ≠ [] := by
    rw [List.reverse_cons]
    rcases pieces.eq_nil_or_concat with rfl | ⟨others, other, rfl⟩
    · simpa using hpiece
    · rw [intercalate_append (by simp) (by simp)]
      simp
  obtain ⟨c, front, hfront⟩ := List.exists_cons_of_ne_nil hstart
  refine ⟨c, front, ['/'].intercalate (idle.reverse ++ last :: trailing.reverse), ?_, hfront ▸ htext⟩
  unfold folderText
  rw [h]
  dsimp only
  rw [hbefore]
  dsimp only
  rw [String.toList_ofList, hfront]

end Start

/-- **The text of the directory starts where the path starts**, if the path names an entry. -/
theorem absolute_folderText (h : solid text ≠ []) :
    (ofText (folderText text)).absolute = (ofText text).absolute := by
  obtain ⟨last, before, hpieces⟩ := exists_of_solid_ne_nil h
  rcases hbefore : before.dropWhile isIdle with - | ⟨piece, pieces⟩
  · unfold folderText
    rw [hpieces]
    dsimp only
    rw [hbefore]
    dsimp only
    rcases (ofText text).absolute <;> decide
  · obtain ⟨c, front, back, hfolder, htext⟩ := exists_start_of_folderText hpieces hbefore
    unfold ofText
    dsimp only
    rw [hfolder, htext]
    rfl

/-- **The text of the directory** holds no character of code 0 if the whole path does not. -/
theorem holdsNul_folderText (h : holdsNul text = false) : holdsNul (folderText text) = false := by
  rcases hpieces : (RecordSort.segments '/' text.toList).reverse.dropWhile isIdle with - | ⟨last, before⟩
  · unfold folderText
    rw [hpieces]
    dsimp only
    decide
  rcases hbefore : before.dropWhile isIdle with - | ⟨piece, pieces⟩
  · unfold folderText
    rw [hpieces]
    dsimp only
    rw [hbefore]
    dsimp only
    split <;> decide
  · obtain ⟨c, front, back, hfolder, htext⟩ := exists_start_of_folderText hpieces hbefore
    unfold holdsNul at h ⊢
    rw [htext, List.contains_eq_any_beq, List.any_append, Bool.or_eq_false_iff] at h
    rw [hfolder, List.contains_eq_any_beq]
    exact h.1

end Path

end RecordSort
