import RecordSort.Stream.Sink
import RecordSort.Stream.Source

/-! # Transfers that lose nothing

A request may be answered in part, and it may be interrupted; neither loses anything, as long as
something is moved in the end. A plan of such transfers is **harmless**: under it a source hands out all
its bytes, and a sink takes up all that it is offered.

* **`Harmless`** — a plan of short transfers that move something, and of interruptions.
* **`ByteSource.stream_of_readPatiently_ok`**, **`_error`** — what a patient request takes off the stream.
* **`ByteSource.stream_eq_data`** — when the stream is the whole data.
* **`ByteSink.Spends`** — what offers do to a sink besides what they write.
* **`ByteSink.contents_of_writeAll`** — what a sink holds once all was written.
* **`ByteSink.writeAll_of_harmless`** — under a harmless plan all is written. -/

namespace RecordSort

/-- Whether a transfer **loses nothing**: it moves something, or it is interrupted and made again. -/
def Transfer.isHarmless : Transfer → Bool
  | .upTo count => decide (0 < count)
  | .fail e => e.isInterrupted

/-- A plan is **harmless** if none of its transfers loses anything. -/
def Harmless (plan : List Transfer) : Prop := ∀ t ∈ plan, t.isHarmless = true

/-- Whether a plan is harmless can be found out. -/
instance (plan : List Transfer) : Decidable (Harmless plan) := by
  unfold Harmless
  infer_instance

/-- The empty plan is harmless. -/
@[simp] theorem harmless_nil : Harmless [] := fun _ ht => absurd ht List.not_mem_nil

/-- A plan is harmless if its first transfer and the others are. -/
@[simp] theorem harmless_cons {t : Transfer} {plan : List Transfer} :
    Harmless (t :: plan) ↔ t.isHarmless = true ∧ Harmless plan := List.forall_mem_cons

/-- What is left of a harmless plan is harmless. -/
theorem Harmless.suffix {plan plan' : List Transfer} (h : Harmless plan) (hsub : plan' <:+ plan) :
    Harmless plan' :=
  fun t ht => h t (hsub.subset ht)

/-- A harmless plan holds no failure other than interruptions. -/
theorem Harmless.isInterrupted {plan : List Transfer} (h : Harmless plan) {e : StreamError}
    (he : Transfer.fail e ∈ plan) : e.isInterrupted = true := h _ he

/-- No request of a harmless plan is answered with nothing. -/
theorem Harmless.upTo_zero_not_mem {plan : List Transfer} (h : Harmless plan) :
    Transfer.upTo 0 ∉ plan := by
  intro hmem
  have := h _ hmem
  contradiction

/-! ## Sources -/

namespace ByteSource

variable {s s' : ByteSource} {size : Nat}

/-- A patient request uses up the plan from its front. -/
theorem plan_of_readPatiently (s : ByteSource) (size : Nat) :
    (s.readPatiently size).2.plan <:+ s.plan := by
  fun_induction readPatiently s size with
  | case1 s bs s' hr =>
    rw [(read_ok hr).2.2]
    exact List.tail_suffix _
  | case2 s e s' hr _ ih =>
    rw [(read_error hr).1]
    exact ih.trans (List.suffix_cons _ _)
  | case3 s e s' hr _ =>
    rw [(read_error hr).1]
    exact List.suffix_cons _ _

/-- The error of a patient request is one of the plan, and no interruption. -/
theorem mem_plan_of_readPatiently {e : StreamError} (h : s.readPatiently size = (.error e, s')) :
    Transfer.fail e ∈ s.plan ∧ e.isInterrupted = false := by
  fun_induction readPatiently s size with
  | case1 => simp at h
  | case2 s e₀ s₀ hr _ ih =>
    rw [(read_error hr).1]
    obtain ⟨hmem, he⟩ := ih h
    exact ⟨List.mem_cons_of_mem _ hmem, he⟩
  | case3 s e₀ s₀ hr hi =>
    rw [(read_error hr).1]
    simp only [Prod.mk.injEq, Except.error.injEq] at h
    rw [← h.1]
    exact ⟨List.mem_cons_self, by simpa using hi⟩

/-- A patient request that is answered **takes its bytes off the stream**; an answer of nothing is given
only where the stream ends. -/
theorem stream_of_readPatiently_ok {bs : Bytes} (h : s.readPatiently size = (.ok bs, s')) :
    s.stream size = if bs = [] then [] else bs ++ s'.stream size := by
  fun_induction readPatiently s size with
  | case1 s bs₀ s₀ hr =>
    simp only [Prod.mk.injEq, Except.ok.injEq] at h
    rw [← h.1, ← h.2]
    exact stream_of_read_ok hr
  | case2 s e₀ s₀ hr _ ih => rw [stream_of_read_error hr, ih h]
  | case3 => simp at h

/-- A patient request that fails leaves the stream as it is. -/
theorem stream_of_readPatiently_error {e : StreamError}
    (h : s.readPatiently size = (.error e, s')) : s'.stream size = s.stream size := by
  fun_induction readPatiently s size with
  | case1 => simp at h
  | case2 s e₀ s₀ hr _ ih => rw [stream_of_read_error hr, ih h]
  | case3 s e₀ s₀ hr _ =>
    simp only [Prod.mk.injEq] at h
    rw [← h.2]
    exact (stream_of_read_error hr).symm

/-- **The stream is the whole data** if no request is answered with nothing before the end. -/
theorem stream_eq_data (hsize : 0 < size) (h : Transfer.upTo 0 ∉ s.plan) :
    s.stream size = s.data := by
  rw [stream]
  generalize s.plan = plan at h
  generalize s.data = data
  induction plan generalizing data with
  | nil => rw [streamOf, if_neg (by omega)]
  | cons t plan ih =>
    rw [List.mem_cons, not_or] at h
    cases t with
    | fail e => rw [streamOf, ih h.2]
    | upTo count =>
      have hcount : count ≠ 0 := fun h0 => h.1 (by rw [h0])
      rw [streamOf, if_neg (by omega), ih h.2, List.take_append_drop]

end ByteSource

/-! ## Sinks -/

namespace ByteSink

variable {s s' : ByteSink}

/-- What offers do to a sink: they **use up its plan** from the front and add to its contents, and they
have no part in its flushes. -/
structure Spends (s s' : ByteSink) : Prop where
  plan : s'.plan <:+ s.plan
  contents : s.contents <+: s'.contents
  flushPlan : s'.flushPlan = s.flushPlan
  flushes : s'.flushes = s.flushes

/-- A sink that is offered nothing has spent nothing. -/
theorem Spends.refl (s : ByteSink) : s.Spends s :=
  ⟨List.suffix_refl _, List.prefix_refl _, rfl, rfl⟩

/-- What a sink spends adds up. -/
theorem Spends.trans {s s' s'' : ByteSink} (h : s.Spends s') (h' : s'.Spends s'') : s.Spends s'' :=
  ⟨h'.plan.trans h.plan, h.contents.trans h'.contents, h'.flushPlan.trans h.flushPlan,
    h'.flushes.trans h.flushes⟩

/-- An offer does this to a sink. -/
theorem spends_offer {bs : Bytes} {answer : Except StreamError Nat}
    (h : s.offer bs = (answer, s')) : s.Spends s' := by
  obtain rfl : (s.offer bs).2 = s' := congrArg Prod.snd h
  rcases hp : s.plan with _ | ⟨count | e, plan⟩ <;> simp only [offer, hp, accept]
  · exact ⟨hp ▸ List.suffix_refl _, by simp [contents], rfl, rfl⟩
  · exact ⟨hp ▸ List.suffix_cons _ _, by simp [contents], rfl, rfl⟩
  · exact ⟨hp ▸ List.suffix_cons _ _, List.prefix_refl _, rfl, rfl⟩

/-- So does writing all bytes. -/
theorem spends_writeAll (s : ByteSink) (bs : Bytes) : s.Spends (s.writeAll bs).2 := by
  fun_induction writeAll s bs with
  | case1 s => exact Spends.refl s
  | case2 s bs _ s' ho => exact spends_offer ho
  | case3 s bs _ n s' ho ih => exact (spends_offer ho).trans ih
  | case4 s bs _ e s' ho _ ih => exact (spends_offer ho).trans ih
  | case5 s bs _ e s' ho _ => exact spends_offer ho

/-- **Once all is written, the sink holds it** behind what it held before. -/
theorem contents_of_writeAll {bs : Bytes} (h : s.writeAll bs = (.ok (), s')) :
    s'.contents = s.contents ++ bs := by
  fun_induction writeAll s bs with
  | case1 s =>
    simp only [Prod.mk.injEq, true_and] at h
    rw [← h, List.append_nil]
  | case2 => simp at h
  | case3 s bs _ n s₀ ho ih =>
    obtain ⟨hcontents, -, -⟩ := offer_ok ho
    rw [ih h, hcontents, List.append_assoc, List.take_append_drop]
  | case4 s bs _ e s₀ ho _ ih => rw [ih h, (offer_error ho).2]
  | case5 => simp at h

/-- **Under a harmless plan all is written.** -/
theorem writeAll_of_harmless (h : Harmless s.plan) (bs : Bytes) : (s.writeAll bs).1 = .ok () := by
  fun_induction writeAll s bs with
  | case1 => rfl
  -- an offer of which nothing is accepted is not in a harmless plan
  | case2 s bs hbs s' ho =>
    have hlen := List.length_pos_iff.2 hbs
    rcases hp : s.plan with _ | ⟨count | e, plan⟩ <;>
      simp only [offer, hp, accept, Prod.mk.injEq, Except.ok.injEq, reduceCtorEq, false_and] at ho
    · omega
    · rw [hp] at h
      have hcount : 0 < count := by simpa [Transfer.isHarmless] using (harmless_cons.1 h).1
      omega
  | case3 s bs hbs n s' ho ih => exact ih (h.suffix (spends_offer ho).plan)
  | case4 s bs hbs e s' ho _ ih => exact ih (h.suffix (spends_offer ho).plan)
  | case5 s bs hbs e s' ho hi =>
    have hmem : Transfer.fail e ∈ s.plan := by rw [(offer_error ho).1]; exact List.mem_cons_self
    exact absurd (h.isInterrupted hmem) hi

end ByteSink

end RecordSort
