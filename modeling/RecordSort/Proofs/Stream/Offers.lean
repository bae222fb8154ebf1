import RecordSort.Stream.Sink

/-! # Offers off the front

Bytes are written to a sink by offers, and what an offer leaves over is offered again. Whatever the sink
accepts of them and whichever offers fail, every offer is of the bytes that come next.

* **`ByteSink.OfferedFrom`** — offers, each off the front of what is left of a byte string by then.
* **`OfferedFrom.exists_accepted`** — what is no longer left has been accepted.
* **`offeredFrom_writeAll`** — writing bytes makes offers off their front, until nothing is left or the
  writing fails. -/

namespace RecordSort

namespace ByteSink

/-- How many bytes were accepted, by the answer to an offer. -/
def acceptedBy : Except StreamError Nat → Nat
  | .ok n => n
  | .error _ => 0

/-- **Offers off the front of `whole`**, one after the other. `OfferedFrom whole s left s'` says that the
sink `s` is offered some first part of `whole`, then some first part of what it has not accepted of `whole`,
and so on; in the end it has not accepted `left`, and is `s'`. -/
inductive OfferedFrom : Bytes → ByteSink → Bytes → ByteSink → Prop
  /-- No offer is made. -/
  | none (whole : Bytes) (s : ByteSink) : OfferedFrom whole s whole s
  /-- The bytes `bs` are offered, and then what is left by then. -/
  | offer {bs rest left : Bytes} {s s' s'' : ByteSink} {answer : Except StreamError Nat}
      (first : s.offer bs = (answer, s'))
      (after : OfferedFrom ((bs ++ rest).drop (acceptedBy answer)) s' left s'') :
      OfferedFrom (bs ++ rest) s left s''

variable {s s' s'' : ByteSink} {bs whole left left' more : Bytes} {answer : Except StreamError Nat}

/-- What an offer adds to the contents. -/
theorem contents_of_offer (h : s.offer bs = (answer, s')) :
    acceptedBy answer ≤ bs.length ∧ s'.contents = s.contents ++ bs.take (acceptedBy answer) := by
  cases answer with
  | ok n => exact ⟨(offer_ok h).2.1, (offer_ok h).1⟩
  | error e =>
    constructor
    · exact Nat.zero_le _
    · rw [(offer_error h).2, acceptedBy, List.take_zero, List.append_nil]

namespace OfferedFrom

/-- All that is left is offered. -/
theorem of_offer (first : s.offer bs = (answer, s'))
    (after : OfferedFrom (bs.drop (acceptedBy answer)) s' left s'') : OfferedFrom bs s left s'' := by
  have hwhole : OfferedFrom (bs ++ []) s left s'' := .offer first (by rwa [List.append_nil])
  rwa [List.append_nil] at hwhole

/-- Offers go on where others left off. -/
theorem trans (h : OfferedFrom whole s left s') (h' : OfferedFrom left s' left' s'') :
    OfferedFrom whole s left' s'' := by
  induction h with
  | none whole s => exact h'
  | offer first _ ih => exact .offer first (ih h')

/-- Bytes behind the others stay left. -/
theorem append (h : OfferedFrom whole s left s') (more : Bytes) :
    OfferedFrom (whole ++ more) s (left ++ more) s' := by
  induction h with
  | none whole s => exact .none _ _
  | @offer bs rest left s s₁ s₂ answer first after ih =>
    have hle : acceptedBy answer ≤ (bs ++ rest).length := by
      rw [List.length_append]
      exact Nat.le_add_right_of_le (contents_of_offer first).1
    rw [← List.drop_append_of_le_length hle, List.append_assoc] at ih
    rw [List.append_assoc]
    exact .offer first ih

/-- Once nothing is left, other bytes are offered. -/
theorem andThen (h : OfferedFrom whole s [] s') (h' : OfferedFrom more s' left s'') :
    OfferedFrom (whole ++ more) s left s'' :=
  (h.append more).trans h'

/-- **What is no longer left has been accepted**, and nothing else. -/
theorem exists_accepted (h : OfferedFrom whole s left s') :
    ∃ accepted, whole = accepted ++ left ∧ s'.contents = s.contents ++ accepted := by
  induction h with
  | none whole s => exact ⟨[], rfl, (List.append_nil _).symm⟩
  | @offer bs rest left s s₁ s₂ answer first after ih =>
    obtain ⟨hle, hfirst⟩ := contents_of_offer first
    obtain ⟨accepted, hleft, hcontents⟩ := ih
    refine ⟨bs.take (acceptedBy answer) ++ accepted, ?_, ?_⟩
    · calc bs ++ rest
          = (bs ++ rest).take (acceptedBy answer) ++ (bs ++ rest).drop (acceptedBy answer) :=
            (List.take_append_drop _ _).symm
        _ = bs.take (acceptedBy answer) ++ (accepted ++ left) := by
            rw [List.take_append_of_le_length hle, hleft]
        _ = bs.take (acceptedBy answer) ++ accepted ++ left := (List.append_assoc ..).symm
    · rw [hcontents, hfirst, List.append_assoc]

end OfferedFrom

/-- **Writing bytes makes offers off their front**, and it succeeds exactly if nothing is left. -/
theorem offeredFrom_writeAll (s : ByteSink) (bs : Bytes) :
    ∃ left, OfferedFrom bs s left (s.writeAll bs).2 ∧ ((s.writeAll bs).1 = .ok () ↔ left = []) := by
  fun_induction writeAll s bs with
  | case1 s => exact ⟨[], .none _ _, by simp⟩
  -- nothing is accepted, or the offer fails: the bytes stay left
  | case2 s bs hbs s' first => exact ⟨bs, .of_offer first (.none _ _), by simp [hbs]⟩
  | case5 s bs hbs e s' first _ => exact ⟨bs, .of_offer first (.none _ _), by simp [hbs]⟩
  -- the bytes that are left are offered again
  | case3 s bs _ n s' first ih =>
    obtain ⟨left, hafter, hok⟩ := ih
    exact ⟨left, .of_offer first hafter, hok⟩
  | case4 s bs _ e s' first _ ih =>
    obtain ⟨left, hafter, hok⟩ := ih
    exact ⟨left, .of_offer first hafter, hok⟩

end ByteSink

end RecordSort
