import RecordSort.Proofs.Record.PlainDecoder

/-! # Readers that are not cut short

A reader that is told too early that there are no more bytes takes what it holds for the last record. As
long as this does not happen, it can be compared with all the bytes that the source has, whatever requests
fail: each record that is handed out is the first record of these bytes, and no part of a record ever is.

* **`RecordReader.unread`** — the bytes that have not been handed on as part of a record.
* **`RecordReader.Uncut`** — the source has not been at its end too early.
* **`Takes`**, **`takes_next`** — every call takes the first record off the unread bytes.
* **`uncut_of_next`**, **`uncut_of_endsWithData`** — when a reader is not cut short. -/

namespace RecordSort.RecordReader

/-- The bytes that have **not been handed on**: those pending, and those that the source still has. -/
def unread (r : RecordReader) : Bytes := r.pending ++ r.source.data

/-- The reader is **not cut short**: its source has answered that it is at its end only where no byte was
left. -/
def Uncut (r : RecordReader) : Prop := r.ended = true → r.source.data = []

/-- What an answer has to do with the **unread bytes** before and after it. -/
def Takes (r : RecordReader) : RecordAnswer × RecordReader → Prop
  | (.ok none, r') => r.unread = [] ∧ r'.unread = []
  | (.ok (some p), r') => takeRecord r.delimiter r.unread = some (p, r'.unread)
  | (.error _, r') => r'.unread = r.unread

variable {r r' : RecordReader} {i j : Nat}

/-- A reader that has not read yet has all bytes before it. -/
theorem Fresh.unread_eq (h : r.Fresh) : r.unread = r.source.data := by
  simp [unread, pending, h.buffer]

/-! ## A round of the search -/

/-- **A round that decides the answer** takes the first record off the unread bytes. -/
theorem takes_of_step_done (hscan : r.Scanned i) {answer : RecordAnswer}
    (h : r.step i = .done answer r') (huncut : r'.Uncut) : r.Takes (answer, r') := by
  rcases step_eq_done h with ⟨stop, hfound, rfl, rfl⟩ | ⟨hnone, hcases⟩
  -- the record ends at a delimiter, so that it does not matter what follows
  · show takeRecord r.delimiter r.unread = _
    rw [unread, hscan.pending_of_indexFrom_some hfound, List.append_assoc, List.cons_append,
      takeRecord_append (hscan.of_indexFrom_some hfound).not_mem]
    rfl
  have hscan := hscan.of_indexFrom_none hnone
  rcases hcases with ⟨hended, hle, rfl, rfl⟩ | ⟨hended, hlt, rfl, rfl⟩ | ⟨-, e, rfl, hfill⟩
  · have hnil : r'.unread = [] := by simp [unread, pending, hle, huncut hended]
    exact ⟨hnil, hnil⟩
  -- all that is pending is the last record, since nothing is left in the source
  · have hdata : r.source.data = [] := huncut hended
    have hall := InRange.pending_eq_extract hscan.start
    have hafter : ({ r with position := r.buffer.size } : RecordReader).unread = [] := by
      simp [unread, pending, hdata]
    show takeRecord r.delimiter r.unread = some (_, _)
    rw [hafter, unread, hdata, List.append_nil, ← hall]
    refine takeRecord_of_not_mem ?_ (hall ▸ hscan.not_mem)
    rw [← List.length_pos_iff, length_pending]
    omega
  · exact (fill_error hfill).1

/-- A round that decides the answer does not repair a reader that has been cut short. -/
theorem uncut_of_step_done {answer : RecordAnswer} (h : r.step i = .done answer r')
    (huncut : r'.Uncut) : r.Uncut := by
  rcases step_eq_done h with ⟨stop, -, -, rfl⟩ |
    ⟨-, ⟨-, -, -, rfl⟩ | ⟨-, -, -, rfl⟩ | ⟨hended, -, -, -⟩⟩
  · exact huncut
  · exact huncut
  · exact huncut
  · intro htrue
    rw [hended] at htrue
    contradiction

/-! ## Calls -/

/-- A search takes the first record off the unread bytes. -/
theorem takes_search (hscan : r.Scanned i) (huncut : (r.search i).2.Uncut) :
    r.Takes (r.search i) := by
  fun_induction search r i with
  | case1 r i answer r' hstep => exact takes_of_step_done hscan hstep huncut
  -- a refill moves unread bytes, and leaves them unread
  | case2 r i r' j hstep ih =>
    obtain ⟨-, hsettings, hscan', -⟩ := scanned_of_step_more hscan hstep
    obtain ⟨-, -, hfill, -⟩ := step_eq_more hstep
    have hsame : r'.unread = r.unread := (fill_ok hfill).1
    have htakes := ih hscan' huncut
    rcases hn : r'.search j with ⟨e | _ | p, r''⟩ <;> rw [hn] at htakes
    · exact htakes.trans hsame
    · exact ⟨hsame ▸ htakes.1, htakes.2⟩
    · show takeRecord r.delimiter r.unread = _
      rw [← hsame, ← hsettings.delimiter]
      exact htakes

/-- A reader that is not cut short after a search was not cut short before it. -/
theorem uncut_of_search (huncut : (r.search i).2.Uncut) : r.Uncut := by
  fun_induction search r i with
  | case1 r i answer r' hstep => exact uncut_of_step_done hstep huncut
  | case2 r i r' j hstep _ =>
    intro htrue
    rw [(step_eq_more hstep).2.1] at htrue
    contradiction

/-- **Every call takes the first record off the unread bytes**, or says that there is none, or fails and
takes nothing, if the reader is not cut short. -/
theorem takes_next (h : r.InRange) (huncut : r.next.2.Uncut) : r.Takes r.next :=
  takes_search h.scanned huncut

/-- A reader that is not cut short has not been before. -/
theorem uncut_of_next (huncut : r.next.2.Uncut) : r.Uncut := uncut_of_search huncut

/-! ## Sources that do not end too early -/

/-- A source that has given answers without ending too early has no byte left once it has answered with
nothing. -/
theorem data_eq_nil_of_gives {size : Nat} {s s' : ByteSource} {given : List SourceAnswer}
    (h : s.EndsWithData size) (hgives : ByteSource.Gives size s given s') (hend : .ok [] ∈ given) :
    s'.data = [] := by
  induction hgives with
  | none s => exact absurd hend List.not_mem_nil
  | @request s s₁ s₂ a given first rest ih =>
    rcases List.mem_cons.1 hend with rfl | hlater
    -- what is answered later is taken from data that are empty already
    · have hnil := h [] _ _ (.none s) first
      have hdata := (ByteSource.read_ok first).1
      rw [hnil, List.nil_append] at hdata
      have hrest := rest.data_eq
      rw [← hdata] at hrest
      exact (List.append_eq_nil_iff.1 hrest.symm).2
    · exact ih (h.of_read first) hlater

/-- **A reader is not cut short** if its source does not end before its data do. -/
theorem uncut_of_endsWithData {given : List SourceAnswer} (hfresh : r.Fresh)
    (h : r.source.EndsWithData r.refill) (hasks : r.Asks r' given) : r'.Uncut := by
  intro hended
  refine data_eq_nil_of_gives h hasks.source ?_
  rcases hasks.ended.1 hended with hbefore | hend
  · rw [hfresh.ended] at hbefore
    contradiction
  · exact hend

end RecordSort.RecordReader
