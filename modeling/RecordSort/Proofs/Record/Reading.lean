import RecordSort.Record.Feed
import RecordSort.Proofs.Stream.Transfers

/-! # What a reader reads

A reader has certain bytes *remaining*: those it holds and has not handed on, and those that the source
will still hand out. It reads as one who has these bytes before him as a whole would: every call takes
the first record off them, however the bytes are spread over transfers. An error takes nothing.

* **`RecordReader.remaining`** — the bytes that are still to be read.
* **`Scanned`** — the bytes up to an index have been searched and hold no delimiter.
* **`Answers`** — what an answer has to do with the remaining bytes; `answers_next` says that it holds of
  every call.
* **`drain_eq_decode`** — the records that come out of a reader.
* **`Fresh.drain_of_harmless`** — all records of a source come out under a harmless plan. -/

namespace RecordSort

/-- The index that a search answers with is the first one. -/
theorem ne_of_indexFrom_eq_some {bytes : Array UInt8} {b : UInt8} {i stop : Nat}
    (h : indexFrom bytes b i = some stop) : ∀ k, i ≤ k → k < stop → bytes[k]? ≠ some b := by
  fun_induction indexFrom bytes b i with
  | case1 i hi hb =>
    intro k hik hk
    simp only [Option.some.injEq] at h
    omega
  | case2 i hi hb ih =>
    intro k hik hk
    rcases Nat.lt_or_ge i k with hlt | hge
    · exact ih h k hlt hk
    · obtain rfl : k = i := by omega
      simp [hi, hb]
  | case3 i hi => simp at h

namespace RecordReader

/-- The bytes that are **still to be read**: those pending, and those that the source hands out before
its end. -/
def remaining (r : RecordReader) : Bytes :=
  r.pending ++ if r.ended then [] else r.source.stream r.refill

/-- The position lies within the buffer. -/
def InRange (r : RecordReader) : Prop := r.position ≤ r.buffer.size

/-- The bytes from the position up to index `i` **have been searched**: none of them is the delimiter. -/
structure Scanned (r : RecordReader) (i : Nat) : Prop where
  start : r.position ≤ i
  stop : i ≤ r.buffer.size
  clean : ∀ k, r.position ≤ k → k < i → r.buffer[k]? ≠ some r.delimiter

/-- Two readers with the same settings. -/
structure SameSettings (r r' : RecordReader) : Prop where
  capacity : r'.capacity = r.capacity
  delimiter : r'.delimiter = r.delimiter

/-- Readers with the same settings ask for the same number of bytes at a time. -/
theorem SameSettings.refill_eq {r r' : RecordReader} (h : r.SameSettings r') : r'.refill = r.refill :=
  congrArg (max · 1) h.capacity

/-- What an **answer** has to do with the bytes remaining before and after it. -/
def Answers (r : RecordReader) : Except StreamError (Option Record) × RecordReader → Prop
  | (.ok none, r') => r.remaining = [] ∧ r'.remaining = []
  | (.ok (some p), r') => takeRecord r.delimiter r.remaining = some (p, r'.remaining)
  | (.error e, r') =>
    r'.remaining = r.remaining ∧ Transfer.fail e ∈ r.source.plan ∧ e.isInterrupted = false

/-! ## A refill -/

/-- Moving bytes to the start of the buffer changes no setting. -/
theorem sameSettings_compact (r : RecordReader) : r.SameSettings r.compact := by
  unfold compact
  split <;> exact ⟨rfl, rfl⟩

/-- A refill that succeeds keeps the remaining bytes; the buffer then holds what was pending, and
perhaps more. -/
theorem remaining_of_fill_ok {r r' : RecordReader} (hended : r.ended = false)
    (h : r.fill = (.ok (), r')) :
    r'.remaining = r.remaining ∧ r.SameSettings r' ∧ r'.position = 0 ∧
      r.pending <+: r'.buffer.toList ∧ r'.source.plan <:+ r.source.plan := by
  have hplan := r.source.plan_of_readPatiently r.refill
  have hsettings := r.sameSettings_compact
  rcases hread : r.source.readPatiently r.refill with ⟨e | bs, source⟩ <;> rw [hread] at hplan
  · simp [fill, receive, hread] at h
  have hstream := ByteSource.stream_of_readPatiently_ok hread
  cases bs with
  -- an answer of nothing: the stream has ended
  | nil =>
    simp only [fill, receive, hread, Prod.mk.injEq, true_and] at h
    subst h
    rw [if_pos rfl] at hstream
    refine ⟨?_, ⟨hsettings.capacity, hsettings.delimiter⟩, position_compact r, ?_, hplan⟩
    · simp [remaining, pending, buffer_compact, hended, hstream]
    · exact (buffer_compact r).symm ▸ List.prefix_refl _
  -- the bytes go from the stream to the buffer
  | cons b bs =>
    simp only [fill, receive, hread, Prod.mk.injEq, true_and] at h
    subst h
    rw [if_neg (by simp)] at hstream
    refine ⟨?_, ⟨hsettings.capacity, hsettings.delimiter⟩, position_compact r, ?_, hplan⟩
    · have hrefill := hsettings.refill_eq
      simp only [refill] at hrefill hstream
      simp [remaining, pending, buffer_compact, hended, refill, hrefill, hstream]
    · simp [buffer_compact]

/-- A refill that fails keeps the remaining bytes. -/
theorem remaining_of_fill_error {r r' : RecordReader} {e : StreamError}
    (h : r.fill = (.error e, r')) :
    r'.remaining = r.remaining ∧ r.SameSettings r' ∧ r'.position = 0 ∧
      r'.source.plan <:+ r.source.plan ∧ Transfer.fail e ∈ r.source.plan ∧
      e.isInterrupted = false := by
  have hplan := r.source.plan_of_readPatiently r.refill
  have hsettings := r.sameSettings_compact
  rcases hread : r.source.readPatiently r.refill with ⟨e' | bs, source⟩ <;> rw [hread] at hplan
  · have hstream := ByteSource.stream_of_readPatiently_error hread
    obtain ⟨hmem, he⟩ := ByteSource.mem_plan_of_readPatiently hread
    simp only [fill, receive, hread, Prod.mk.injEq, Except.error.injEq] at h
    obtain ⟨rfl, rfl⟩ := h
    refine ⟨?_, ⟨hsettings.capacity, hsettings.delimiter⟩, position_compact r, hplan, hmem, he⟩
    have hrefill := hsettings.refill_eq
    simp only [refill] at hrefill hstream
    simp [remaining, pending, buffer_compact, refill, hrefill, hstream]
  · cases bs <;> simp [fill, receive, hread] at h

/-! ## A round of the search -/

variable {r r' : RecordReader} {i j : Nat}

/-- Before a call no byte has been searched. -/
theorem InRange.scanned (h : r.InRange) : r.Scanned r.position :=
  ⟨Nat.le_refl _, h, fun k hk hlt => by omega⟩

/-- The bytes before the first delimiter have been searched. -/
theorem Scanned.of_indexFrom_some (h : r.Scanned i) {stop : Nat}
    (hfound : indexFrom r.buffer r.delimiter i = some stop) : r.Scanned stop where
  start := Nat.le_trans h.start (indexFrom_eq_some hfound).1
  stop := Nat.le_of_lt (Array.getElem?_eq_some_iff.1 (indexFrom_eq_some hfound).2).1
  clean k hk hlt := by
    rcases Nat.lt_or_ge k i with hki | hik
    · exact h.clean k hk hki
    · exact ne_of_indexFrom_eq_some hfound k hik hlt

/-- Where there is no delimiter, all bytes have been searched. -/
theorem Scanned.of_indexFrom_none (h : r.Scanned i)
    (hnone : indexFrom r.buffer r.delimiter i = none) : r.Scanned r.buffer.size where
  start := Nat.le_trans h.start h.stop
  stop := Nat.le_refl _
  clean k hk _ := by
    rcases Nat.lt_or_ge k i with hki | hik
    · exact h.clean k hk hki
    · exact indexFrom_eq_none hnone k hik

/-- The bytes that have been searched are the first ones that are pending. -/
theorem pending_eq_extract_append (r : RecordReader) (h : r.position ≤ i) :
    r.pending = (r.buffer.extract r.position i).toList ++ r.buffer.toList.drop i := by
  rw [pending, Array.toList_extract, List.extract_eq_take_drop]
  conv => lhs; rw [← List.take_append_drop (i - r.position) (r.buffer.toList.drop r.position)]
  rw [List.drop_drop, Nat.add_sub_cancel' h]

/-- Bytes that have been searched hold no delimiter. -/
theorem Scanned.not_mem (h : r.Scanned i) :
    r.delimiter ∉ (r.buffer.extract r.position i).toList := by
  intro hmem
  obtain ⟨k, hk⟩ := List.mem_iff_getElem?.1 hmem
  rw [Array.getElem?_toList, Array.getElem?_extract] at hk
  split at hk
  · have hstop := h.stop
    exact h.clean (r.position + k) (by omega) (by omega) hk
  · simp at hk

/-- What is pending, from the position to the end of the buffer. -/
theorem InRange.pending_eq_extract (h : r.InRange) :
    r.pending = (r.buffer.extract r.position r.buffer.size).toList := by
  rw [pending_eq_extract_append r h, List.drop_eq_nil_of_le (by simp), List.append_nil]

/-- A delimiter that is found stands between the record and the other bytes that are pending. -/
theorem Scanned.pending_of_indexFrom_some (h : r.Scanned i) {stop : Nat}
    (hfound : indexFrom r.buffer r.delimiter i = some stop) :
    r.pending = (r.buffer.extract r.position stop).toList ++
      r.delimiter :: ({ r with position := stop + 1 } : RecordReader).pending := by
  obtain ⟨hlt, hget⟩ := Array.getElem?_eq_some_iff.1 (indexFrom_eq_some hfound).2
  have hdrop : r.buffer.toList.drop stop = r.delimiter :: r.buffer.toList.drop (stop + 1) := by
    rw [List.drop_eq_getElem_cons (by simpa using hlt), Array.getElem_toList, hget]
  rw [pending_eq_extract_append r (h.of_indexFrom_some hfound).start, hdrop]
  rfl

/-- Where no delimiter is found, none is pending. -/
theorem Scanned.not_mem_pending (h : r.Scanned i)
    (hnone : indexFrom r.buffer r.delimiter i = none) : r.delimiter ∉ r.pending := by
  have hscan := h.of_indexFrom_none hnone
  rw [InRange.pending_eq_extract hscan.start]
  exact hscan.not_mem

/-- **A round that decides the answer**: the answer is right, the position stays within the buffer, and
the plan is used up from its front. -/
theorem answers_of_step_done (hscan : r.Scanned i) {answer : Except StreamError (Option Record)}
    (h : r.step i = .done answer r') :
    r.Answers (answer, r') ∧ r.SameSettings r' ∧ r'.InRange ∧ r'.source.plan <:+ r.source.plan := by
  rcases step_eq_done h with ⟨stop, hfound, rfl, rfl⟩ | ⟨hnone, hcases⟩
  -- the bytes up to the next delimiter are the record
  · have hlt : stop < r.buffer.size := (Array.getElem?_eq_some_iff.1 (indexFrom_eq_some hfound).2).1
    refine ⟨?_, ⟨rfl, rfl⟩, hlt, List.suffix_refl _⟩
    show takeRecord r.delimiter r.remaining = _
    rw [remaining, hscan.pending_of_indexFrom_some hfound, List.append_assoc, List.cons_append,
      takeRecord_append (hscan.of_indexFrom_some hfound).not_mem]
    rfl
  have hscan := hscan.of_indexFrom_none hnone
  rcases hcases with ⟨hended, hle, rfl, rfl⟩ | ⟨hended, hlt, rfl, rfl⟩ | ⟨-, e, rfl, hfill⟩
  -- nothing is pending and nothing will come
  · have hnil : r'.remaining = [] := by
      simp [remaining, pending, hended, hle]
    exact ⟨⟨hnil, hnil⟩, ⟨rfl, rfl⟩, hscan.start, List.suffix_refl _⟩
  -- all that is pending is the last record
  · refine ⟨?_, ⟨rfl, rfl⟩, Nat.le_refl _, List.suffix_refl _⟩
    have hremaining : r.remaining = r.pending := by simp [remaining, hended]
    have hall := InRange.pending_eq_extract hscan.start
    have hafter : ({ r with position := r.buffer.size } : RecordReader).remaining = [] := by
      simp [remaining, pending, hended]
    show takeRecord r.delimiter r.remaining = some (_, _)
    rw [hafter, hremaining, ← hall]
    refine takeRecord_of_not_mem ?_ (hall ▸ hscan.not_mem)
    rw [← List.length_pos_iff, length_pending]
    omega
  -- the source fails
  · obtain ⟨hremaining, hsettings, h0, hplan, hmem, he⟩ := remaining_of_fill_error hfill
    refine ⟨⟨hremaining, hmem, he⟩, hsettings, ?_, hplan⟩
    rw [InRange, h0]
    exact Nat.zero_le _

/-- **A round that goes on** keeps the remaining bytes, and those that were pending have been searched. -/
theorem scanned_of_step_more (hscan : r.Scanned i) (h : r.step i = .more r' j) :
    r'.remaining = r.remaining ∧ r.SameSettings r' ∧ r'.Scanned j ∧
      r'.source.plan <:+ r.source.plan := by
  obtain ⟨hnone, hended, hfill, rfl⟩ := step_eq_more h
  have hscan := hscan.of_indexFrom_none hnone
  obtain ⟨hremaining, hsettings, h0, hprefix, hplan⟩ := remaining_of_fill_ok hended hfill
  refine ⟨hremaining, hsettings, ⟨h0 ▸ Nat.zero_le _, ?_, fun k _ hk => ?_⟩, hplan⟩
  · have hlen := hprefix.length_le
    simpa using hlen
  -- the bytes at the front of the buffer are those that were pending
  · have hlen : k < r.pending.length := by rw [length_pending]; exact hk
    have hsame : r'.buffer[k]? = r.buffer[r.position + k]? := by
      obtain ⟨more, hmore⟩ := hprefix
      rw [← Array.getElem?_toList, ← hmore, List.getElem?_append_left hlen, pending,
        List.getElem?_drop, Array.getElem?_toList]
    rw [hsame, hsettings.delimiter]
    exact hscan.clean (r.position + k) (by omega) (by omega)

/-! ## Reading records -/

/-- An answer is as right for a reader as for the one that a round has left of it. -/
theorem Answers.of_round {out : Except StreamError (Option Record) × RecordReader}
    (h : r'.Answers out) (hremaining : r'.remaining = r.remaining) (hsettings : r.SameSettings r')
    (hplan : r'.source.plan <:+ r.source.plan) : r.Answers out := by
  rcases out with ⟨e | _ | p, r''⟩
  · exact ⟨h.1.trans hremaining, hplan.subset h.2.1, h.2.2⟩
  · exact ⟨hremaining ▸ h.1, h.2⟩
  · show takeRecord r.delimiter r.remaining = _
    rw [← hremaining, ← hsettings.delimiter]
    exact h

/-- **A search answers** as the plain decoder does, and it leaves settings and ranges as they should be. -/
theorem answers_search (hscan : r.Scanned i) :
    r.Answers (r.search i) ∧ r.SameSettings (r.search i).2 ∧ (r.search i).2.InRange ∧
      (r.search i).2.source.plan <:+ r.source.plan := by
  fun_induction search r i with
  | case1 r i answer r' hstep => exact answers_of_step_done hscan hstep
  | case2 r i r' j hstep ih =>
    obtain ⟨hremaining, hsettings, hscan', hplan⟩ := scanned_of_step_more hscan hstep
    obtain ⟨hanswers, hsettings', hrange, hplan'⟩ := ih hscan'
    exact ⟨hanswers.of_round hremaining hsettings hplan,
      ⟨hsettings'.capacity.trans hsettings.capacity,
        hsettings'.delimiter.trans hsettings.delimiter⟩, hrange, hplan'.trans hplan⟩

/-- **Every call takes the first record off the remaining bytes**, or says that there is none, or fails
and takes nothing. -/
theorem answers_next (h : r.InRange) :
    r.Answers r.next ∧ r.SameSettings r.next.2 ∧ r.next.2.InRange ∧
      r.next.2.source.plan <:+ r.source.plan :=
  answers_search h.scanned

/-- **The records that come out of a reader** are those of the remaining bytes, up to an error that its
source reports. -/
theorem drain_eq_decode (h : r.InRange) :
    ((drain r).outcome = .ok () → (drain r).records = decode r.delimiter r.remaining) ∧
      ∀ e, (drain r).outcome = .error e →
        (drain r).records <+: decode r.delimiter r.remaining ∧
          Transfer.fail e ∈ r.source.plan ∧ e.isInterrupted = false := by
  induction hw : FiniteFeed.weight r using Nat.strongRecOn generalizing r with
  | ind n ih =>
    obtain ⟨hanswers, hsettings, hrange, hplan⟩ := answers_next h
    have hlt := FiniteFeed.weight_next_lt r
    rcases hn : RecordFeed.next r with ⟨e | _ | p, r'⟩ <;> rw [hn] at hlt <;>
      rw [show r.next = _ from hn] at hanswers hsettings hrange hplan
    · rw [drain_of_error hn]
      refine ⟨fun hok => by simp at hok, fun e' he' => ?_⟩
      obtain rfl : e = e' := by simpa using he'
      exact ⟨List.nil_prefix, hanswers.2⟩
    · rw [drain_of_none hn, show r.remaining = [] from hanswers.1]
      exact ⟨fun _ => rfl, fun e he => by simp at he⟩
    -- the first record is taken off, and the others come out of what remains
    · have hfirst : decode r.delimiter r.remaining = p :: decode r.delimiter r'.remaining := by
        rw [decode_eq_takeRecord, show takeRecord r.delimiter r.remaining = _ from hanswers]
      obtain ⟨hok, herror⟩ := ih _ (hw ▸ hlt (by simp)) hrange rfl
      rw [hsettings.delimiter] at hok herror
      rw [drain_of_record hn, hfirst]
      refine ⟨fun h => congrArg (p :: ·) (hok h), fun e he => ?_⟩
      obtain ⟨hrecords, hmem, hint⟩ := herror e he
      exact ⟨List.cons_prefix_cons.2 ⟨rfl, hrecords⟩, hplan.subset hmem, hint⟩

/-! ## A reader that has not read yet -/

/-- A reader that **has not read yet**. -/
structure Fresh (r : RecordReader) : Prop where
  buffer : r.buffer = #[]
  position : r.position = 0
  ended : r.ended = false

/-- A reader that has not read has its positions in range. -/
theorem Fresh.inRange (h : r.Fresh) : r.InRange := by
  rw [InRange, h.position]
  exact Nat.zero_le _

/-- The stream of the source remains. -/
theorem Fresh.remaining_eq_stream (h : r.Fresh) : r.remaining = r.source.stream r.refill := by
  simp [remaining, pending, h.buffer, h.ended]

/-- If no request is answered with nothing before the end, all bytes of the source remain. -/
theorem Fresh.remaining_eq_data (h : r.Fresh) (hplan : Transfer.upTo 0 ∉ r.source.plan) :
    r.remaining = r.source.data :=
  h.remaining_eq_stream.trans (ByteSource.stream_eq_data (Nat.le_max_right r.capacity 1) hplan)

/-- **The records of the source come out** of a reader unless the source fails. -/
theorem Fresh.records_of_drain (h : r.Fresh) (hplan : Transfer.upTo 0 ∉ r.source.plan)
    (hok : (drain r).outcome = .ok ()) : (drain r).records = decode r.delimiter r.source.data := by
  rw [← h.remaining_eq_data hplan]
  exact (drain_eq_decode h.inRange).1 hok

/-- **Under a harmless plan** all records of the source come out. -/
theorem Fresh.drain_of_harmless (h : r.Fresh) (hplan : Harmless r.source.plan) :
    (drain r).records = decode r.delimiter r.source.data ∧ (drain r).outcome = .ok () := by
  have hok : (drain r).outcome = .ok () := by
    cases houtcome : (drain r).outcome with
    | ok => rfl
    | error e =>
      obtain ⟨-, hmem, he⟩ := (drain_eq_decode h.inRange).2 e houtcome
      rw [hplan.isInterrupted hmem] at he
      contradiction
  exact ⟨h.records_of_drain hplan.upTo_zero_not_mem hok, hok⟩

end RecordReader

end RecordSort
