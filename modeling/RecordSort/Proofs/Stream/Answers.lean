import RecordSort.Proofs.Stream.Transfers

/-! # What a source answers

Requests for one number of bytes are made to a source one after the other, and what it answers is put
down in a list. From such a list it can be told which bytes were handed out, which errors were raised and
whether the source has answered that it is at its end.

* **`handedOut`**, **`raised`** — the bytes and the errors in a list of answers.
* **`ByteSource.Gives`** — a source gives answers; `Gives.data_eq` says that it hands out its data, and
  `Gives.unique` that it has no choice.
* **`exists_gives_iff`** — which answers a source can give at all.
* **`gives_readPatiently`** — the answers behind a patient request.
* **`ByteSource.EndsWithData`**, **`stream_eq_data_of_endsWithData`** — a source that does not end before
  its data do. -/

namespace RecordSort

/-- What a source answers to a request. -/
abbrev SourceAnswer := Except StreamError Bytes

/-- The bytes that an answer brings. -/
def bytesOf : SourceAnswer → Bytes
  | .ok bs => bs
  | .error _ => []

/-- The bytes that a source has **handed out** with its answers. -/
def handedOut (given : List SourceAnswer) : Bytes := given.flatMap bytesOf

/-- The error of an answer, if it is one. -/
def errorOf {α : Type} : Except StreamError α → Option StreamError
  | .ok _ => none
  | .error e => some e

/-- The errors that a source has **raised** with its answers, in order. Interruptions are not among
them. -/
def raised (given : List SourceAnswer) : List StreamError :=
  (given.filterMap errorOf).filter fun e => !e.isInterrupted

section Lists

variable {given given' : List SourceAnswer} {bs : Bytes} {e : StreamError}

/-- No answer hands out no bytes. -/
@[simp] theorem handedOut_nil : handedOut [] = [] := rfl

/-- The bytes of an answer come before those of the others. -/
@[simp] theorem handedOut_ok : handedOut (.ok bs :: given) = bs ++ handedOut given := rfl

/-- An error hands out no bytes. -/
@[simp] theorem handedOut_error : handedOut (.error e :: given) = handedOut given := rfl

/-- The bytes of two rows of answers come one after the other. -/
@[simp] theorem handedOut_append :
    handedOut (given ++ given') = handedOut given ++ handedOut given' :=
  List.flatMap_append

/-- An interruption is not raised. -/
theorem raised_of_interrupted (h : e.isInterrupted = true) :
    raised (.error e :: given) = raised given := by
  simp [raised, errorOf, h]

/-- Any other error is raised. -/
theorem raised_of_not_interrupted (h : e.isInterrupted = false) :
    raised (.error e :: given) = e :: raised given := by
  simp [raised, errorOf, h]

/-- The errors of two rows of answers are raised one after the other. -/
@[simp] theorem raised_append : raised (given ++ given') = raised given ++ raised given' := by
  simp [raised]

end Lists

namespace ByteSource

/-- **The source gives answers** to requests for `size` bytes each: `Gives size s given s'` says that it
answers the coming requests with `given` and is `s'` afterwards. -/
inductive Gives (size : Nat) : ByteSource → List SourceAnswer → ByteSource → Prop
  /-- No request is made. -/
  | none (s : ByteSource) : Gives size s [] s
  /-- A request is made, and then others are. -/
  | request {s s' s'' : ByteSource} {a : SourceAnswer} {given : List SourceAnswer}
      (first : s.read size = (a, s')) (rest : Gives size s' given s'') :
      Gives size s (a :: given) s''

variable {size : Nat} {s s' s'' : ByteSource} {given given' : List SourceAnswer}

/-- What a source gives adds up. -/
theorem Gives.trans (h : Gives size s given s') (h' : Gives size s' given' s'') :
    Gives size s (given ++ given') s'' := by
  induction h with
  | none s => exact h'
  | request first _ ih => exact .request first (ih h')

/-- **What is handed out is the front of the data**; the source keeps the others. -/
theorem Gives.data_eq (h : Gives size s given s') : s.data = handedOut given ++ s'.data := by
  induction h with
  | none s => rfl
  | @request s s₁ s₂ a given first _ ih =>
    cases a with
    | ok bs => rw [handedOut_ok, List.append_assoc, ← ih, (read_ok first).1]
    | error e => rw [handedOut_error, ← ih, (read_error first).2]

/-- Every request is logged, and each asks for the same number of bytes. -/
theorem Gives.requests_eq (h : Gives size s given s') :
    s'.requests = List.replicate given.length size ++ s.requests := by
  induction h with
  | none s => rfl
  | @request s s₁ s₂ a given first _ ih =>
    have hlog : s₁.requests = size :: s.requests := by rw [← requests_read, first]
    rw [ih, hlog, List.length_cons, List.replicate_succ', List.append_assoc, List.singleton_append]

/-- **A source has no choice**: as many requests get the same answers and leave the same source. -/
theorem Gives.unique (h : Gives size s given s') (h' : Gives size s given' s'')
    (hlength : given.length = given'.length) : given = given' ∧ s' = s'' := by
  induction h generalizing given' s'' with
  | none s =>
    cases h' with
    | none => exact ⟨rfl, rfl⟩
    | request first rest => simp at hlength
  | @request s s₁ s₂ a given first _ ih =>
    cases h' with
    | none => simp at hlength
    | request first' rest' =>
      obtain ⟨rfl, rfl⟩ := Prod.mk.inj (first.symm.trans first')
      obtain ⟨rfl, rfl⟩ := ih rest' (by simpa using hlength)
      exact ⟨rfl, rfl⟩

/-- Answers that lead to the same source are the same. -/
theorem Gives.eq_of_gives (h : Gives size s given s') (h' : Gives size s given' s') :
    given = given' := by
  refine (h.unique h' ?_).1
  have hlog := congrArg List.length (h.requests_eq.symm.trans h'.requests_eq)
  simpa using hlog

/-- The entry of a plan that leads to an answer. -/
def entryFor : SourceAnswer → Transfer
  | .ok bs => .upTo bs.length
  | .error e => .fail e

/-- Answers with no more bytes than are asked for are given by the source that has **these bytes and entries
for them**. -/
theorem exists_gives (hsize : ∀ bs, .ok bs ∈ given → bs.length ≤ size) (requests : List Nat) :
    ∃ s', Gives size
      { data := handedOut given, plan := given.map entryFor, requests := requests } given s' := by
  induction given generalizing requests with
  | nil => exact ⟨_, .none _⟩
  | cons a given ih =>
    obtain ⟨s', hgives⟩ := ih (fun bs hbs => hsize bs (List.mem_cons_of_mem a hbs)) (size :: requests)
    refine ⟨s', .request ?_ hgives⟩
    cases a with
    | ok bs =>
      have hmin : min bs.length size = bs.length := Nat.min_eq_left (hsize bs List.mem_cons_self)
      simp [read, deliver, entryFor, hmin]
    | error e => rfl

/-- **A source may answer as it likes**, with no more bytes than it is asked for: all such rows of answers
are given by sources, and no others are. -/
theorem exists_gives_iff :
    (∃ s s', Gives size s given s') ↔ ∀ bs, .ok bs ∈ given → bs.length ≤ size := by
  constructor
  · rintro ⟨s, s', hgives⟩ bs hbs
    induction hgives with
    | none s => simp at hbs
    | request first _ ih =>
      rcases List.mem_cons.1 hbs with rfl | hbs
      · exact (read_ok first).2.1
      · exact ih hbs
  · intro hsize
    exact ⟨_, exists_gives hsize []⟩

/-- **The answers behind a patient request**: interruptions, and then the answer that it passes on. -/
theorem gives_readPatiently {a : SourceAnswer} (h : s.readPatiently size = (a, s')) :
    ∃ given, Gives size s given s' ∧ handedOut given = bytesOf a ∧
      raised given = (errorOf a).toList ∧ (.ok [] ∈ given ↔ a = .ok []) := by
  fun_induction readPatiently s size with
  | case1 s bs s₀ hr =>
    obtain ⟨rfl, rfl⟩ := Prod.mk.inj h
    exact ⟨[.ok bs], .request hr (.none _), by simp [bytesOf], rfl, by simp [eq_comm]⟩
  -- the request is interrupted and made again
  | case2 s e s₀ hr hint ih =>
    obtain ⟨given, hgives, hbytes, hraised, hend⟩ := ih h
    refine ⟨.error e :: given, .request hr hgives, hbytes, ?_, by simpa using hend⟩
    rw [raised_of_interrupted hint, hraised]
  | case3 s e s₀ hr hint =>
    obtain ⟨rfl, rfl⟩ := Prod.mk.inj h
    refine ⟨[.error e], .request hr (.none _), rfl, ?_, by simp⟩
    rw [raised_of_not_interrupted (by simpa using hint)]
    rfl

/-- The source **does not end before its data do**: a request is answered with nothing only where
nothing is left. -/
def EndsWithData (s : ByteSource) (size : Nat) : Prop :=
  ∀ given s' s'', Gives size s given s' → s'.read size = (.ok [], s'') → s'.data = []

/-- A source that ends with its data still does after a read. -/
theorem EndsWithData.of_read (h : s.EndsWithData size) {a : SourceAnswer}
    (hr : s.read size = (a, s')) : s'.EndsWithData size :=
  fun _ _ _ hgives => h _ _ _ (.request hr hgives)

/-- The stream of such a source is its whole data. -/
theorem stream_eq_data_of_endsWithData (hsize : 0 < size) (h : s.EndsWithData size) :
    s.stream size = s.data := by
  induction hplan : s.plan generalizing s with
  | nil => rw [stream, hplan, streamOf, if_neg (by omega)]
  | cons t plan ih =>
    rcases hr : s.read size with ⟨e | bs, s'⟩
    -- a failed request changes neither the stream nor the data
    · obtain ⟨hp, hd⟩ := read_error hr
      rw [hplan] at hp
      rw [stream_of_read_error hr, ← hd]
      exact ih (h.of_read hr) (List.cons.inj hp).2.symm
    · obtain ⟨hd, -, hp⟩ := read_ok hr
      rw [stream_of_read_ok hr]
      split
      · rename_i hbs
        subst hbs
        rw [h [] s s' (.none s) hr]
      · rw [hd, ih (h.of_read hr) (by rw [hp, hplan]; rfl)]

/-- A request uses up the plan from its front. -/
theorem plan_of_read {a : SourceAnswer} (hr : s.read size = (a, s')) : s'.plan <:+ s.plan := by
  cases a with
  | ok bs => rw [(read_ok hr).2.2]; exact List.tail_suffix _
  | error e => rw [(read_error hr).1]; exact List.suffix_cons _ _

/-- A source whose plan answers no request with nothing does not end before its data do. -/
theorem endsWithData_of_not_mem (hsize : 0 < size) (h : Transfer.upTo 0 ∉ s.plan) :
    s.EndsWithData size := by
  intro given s' s'' hgives hr
  induction hgives with
  | none s =>
    rcases hp : s.plan with _ | ⟨count | e, plan⟩ <;>
      simp only [read, hp, deliver, Prod.mk.injEq, Except.ok.injEq, reduceCtorEq, false_and,
        List.take_eq_nil_iff] at hr
    · exact hr.1.resolve_left (by omega)
    · have hcount : count ≠ 0 := by
        rintro rfl
        exact h (hp ▸ List.mem_cons_self)
      exact hr.1.resolve_left (by omega)
  | request first _ ih => exact ih (fun hmem => h ((plan_of_read first).subset hmem)) hr

end ByteSource

end RecordSort
