import RecordSort.Record.Format
import RecordSort.Stream.Error

/-! # Byte sinks

A **byte sink** takes up bytes that it is offered. How many of an offer it accepts, and which calls
fail, is laid down by its plans, one entry per call; calls beyond a plan succeed in full.

* **`offer bs`** — one call; the sink accepts some first part of `bs`.
* **`writeAll bs`** — offers what is left until all is accepted; interrupted calls are made again, and
  a call that accepts nothing is an error.
* **`flush`** — one call that asks for everything to be passed on; it is never repeated. -/

namespace RecordSort

/-- A sink for bytes, with the schedules it keeps and a log of the calls made so far. -/
structure ByteSink where
  /-- The pieces accepted so far, the latest first. -/
  pieces : List Bytes := []
  /-- What the coming offers get, in order; further offers are accepted whole. -/
  plan : List Transfer := []
  /-- How the coming flushes end, in order; further flushes succeed. -/
  flushPlan : List Transfer := []
  /-- The lengths of the offers made so far, the latest first, failed ones included. -/
  offers : List Nat := []
  /-- The number of flushes so far, failed ones included. -/
  flushes : Nat := 0

namespace ByteSink

/-- The bytes accepted so far. -/
def contents (s : ByteSink) : Bytes := s.pieces.reverse.flatten

/-- Accepts the first `count` of the bytes `bs`, or all of them, and says how many that is. -/
def accept (s : ByteSink) (bs : Bytes) (count : Nat) : Except StreamError Nat × ByteSink :=
  (.ok (min count bs.length),
    { s with pieces := bs.take (min count bs.length) :: s.pieces })

/-- One **offer** of the bytes `bs`; the answer is how many of them were accepted. -/
def offer (s : ByteSink) (bs : Bytes) : Except StreamError Nat × ByteSink :=
  let s := { s with offers := bs.length :: s.offers }
  match s.plan with
  | [] => s.accept bs bs.length
  | .upTo count :: plan => { s with plan := plan }.accept bs count
  | .fail e :: plan => (.error e, { s with plan := plan })

section Offer

variable {s s' : ByteSink} {bs : Bytes}

/-- An offer that fails uses up an entry of the plan and no byte. -/
theorem offer_error {e : StreamError} (h : s.offer bs = (.error e, s')) :
    s.plan = .fail e :: s'.plan ∧ s'.contents = s.contents := by
  rcases hp : s.plan with _ | ⟨_ | _, _⟩ <;> simp [offer, hp, accept, contents] at h ⊢
  rw [← h.2]
  exact ⟨⟨h.1, rfl⟩, rfl⟩

/-- An offer that succeeds adds as many of the offered bytes as it says. -/
theorem offer_ok {n : Nat} (h : s.offer bs = (.ok n, s')) :
    s'.contents = s.contents ++ bs.take n ∧ n ≤ bs.length ∧ s'.plan = s.plan.tail := by
  rcases hp : s.plan with _ | ⟨_ | _, _⟩ <;>
    simp only [offer, hp, accept, Prod.mk.injEq, Except.ok.injEq, reduceCtorEq, false_and] at h
  all_goals
    obtain ⟨rfl, rfl⟩ := h
    exact ⟨by simp [contents], Nat.min_le_right _ _, rfl⟩

end Offer

/-- **Writes all of `bs`**: what an offer leaves over is offered again, an interrupted offer is
repeated, and an offer of which nothing is accepted is an error. Nothing is offered for `bs = []`. -/
def writeAll (s : ByteSink) (bs : Bytes) : Except StreamError Unit × ByteSink :=
  if _hbs : bs = [] then (.ok (), s)
  else
    match _h : s.offer bs with
    | (.ok 0, s') => (.error .writeZero, s')
    | (.ok (n + 1), s') => s'.writeAll (bs.drop (n + 1))
    | (.error e, s') => if e.isInterrupted then s'.writeAll bs else (.error e, s')
termination_by s.plan.length + bs.length
decreasing_by
  -- some bytes are accepted: fewer are left to offer
  · have hlen := List.length_pos_iff.2 _hbs
    have hplan := congrArg List.length (offer_ok _h).2.2
    simp only [List.length_drop, List.length_tail] at hplan ⊢
    omega
  -- the offer is interrupted: an entry of the plan is used up
  · have hplan := congrArg List.length (offer_error _h).1
    simp only [List.length_cons] at hplan
    omega

/-- One **flush**. -/
def flush (s : ByteSink) : Except StreamError Unit × ByteSink :=
  let s := { s with flushes := s.flushes + 1 }
  match s.flushPlan with
  | [] => (.ok (), s)
  | .upTo _ :: plan => (.ok (), { s with flushPlan := plan })
  | .fail e :: plan => (.error e, { s with flushPlan := plan })

/-- A flush counts. -/
@[simp] theorem flushes_flush (s : ByteSink) : s.flush.2.flushes = s.flushes + 1 := by
  rcases hp : s.flushPlan with _ | ⟨_ | _, _⟩ <;> simp [flush, hp]

/-- A flush offers no bytes. -/
@[simp] theorem offers_flush (s : ByteSink) : s.flush.2.offers = s.offers := by
  rcases hp : s.flushPlan with _ | ⟨_ | _, _⟩ <;> simp [flush, hp]

/-- A flush accepts no bytes. -/
@[simp] theorem contents_flush (s : ByteSink) : s.flush.2.contents = s.contents := by
  rcases hp : s.flushPlan with _ | ⟨_ | _, _⟩ <;> simp [flush, hp, contents]

end ByteSink

end RecordSort
