import RecordSort.Record.Format
import RecordSort.Stream.Error

/-! # Byte sources

A **byte source** hands out a byte string piece by piece. How large the pieces are, and which requests
fail, is laid down by its `plan`, one entry per request; requests beyond the plan get as much as they
ask for. A request answered with nothing at all means the end, whether bytes are left or not.

* **`read size`** — one request for at most `size` bytes.
* **`readPatiently size`** — a request that is repeated while it is interrupted.
* **`stream size`** — what a reader that asks for `size` bytes at a time gets to see in all. -/

namespace RecordSort

/-- A source of bytes, with the schedule it keeps and a log of the requests made so far. -/
structure ByteSource where
  /-- The bytes not yet handed out. -/
  data : Bytes
  /-- What the coming requests get, in order; further requests are met in full. -/
  plan : List Transfer := []
  /-- The sizes asked for so far, the latest first, failed requests included. -/
  requests : List Nat := []

namespace ByteSource

/-- Hands out the next `count` bytes, or all that are left. -/
def deliver (s : ByteSource) (count : Nat) : Except StreamError Bytes × ByteSource :=
  (.ok (s.data.take count), { s with data := s.data.drop count })

/-- One **request** for at most `size` bytes. -/
def read (s : ByteSource) (size : Nat) : Except StreamError Bytes × ByteSource :=
  let s := { s with requests := size :: s.requests }
  match s.plan with
  | [] => s.deliver size
  | .upTo count :: plan => { s with plan := plan }.deliver (min count size)
  | .fail e :: plan => (.error e, { s with plan := plan })

section Read

variable {s s' : ByteSource} {size : Nat}

/-- A request that fails uses up an entry of the plan and no byte. -/
theorem read_error {e : StreamError} (h : s.read size = (.error e, s')) :
    s.plan = .fail e :: s'.plan ∧ s'.data = s.data := by
  rcases hp : s.plan with _ | ⟨_ | _, _⟩ <;> simp [read, hp, deliver] at h ⊢
  rw [← h.2]
  exact ⟨⟨h.1, rfl⟩, rfl⟩

/-- A request that succeeds hands out the bytes that come next, at most as many as asked for. -/
theorem read_ok {bs : Bytes} (h : s.read size = (.ok bs, s')) :
    s.data = bs ++ s'.data ∧ bs.length ≤ size ∧ s'.plan = s.plan.tail := by
  rcases hp : s.plan with _ | ⟨_ | _, _⟩ <;> simp [read, hp, deliver] at h <;>
    (rw [← h.1, ← h.2]; simp; try omega)

/-- Every request is logged. -/
@[simp] theorem requests_read (s : ByteSource) (size : Nat) :
    (s.read size).2.requests = size :: s.requests := by
  rcases hp : s.plan with _ | ⟨_ | _, _⟩ <;> simp [read, hp, deliver]

end Read

/-- A request for at most `size` bytes that is made again as long as it is **interrupted**. -/
def readPatiently (s : ByteSource) (size : Nat) : Except StreamError Bytes × ByteSource :=
  match _h : s.read size with
  | (.ok bs, s') => (.ok bs, s')
  | (.error e, s') => if e.isInterrupted then s'.readPatiently size else (.error e, s')
termination_by s.plan.length
decreasing_by
  rw [(read_error _h).1]
  simp

section ReadPatiently

variable {s s' : ByteSource} {size : Nat}

/-- A patient request that fails has used up some of the plan and no byte. -/
theorem readPatiently_error {e : StreamError} (h : s.readPatiently size = (.error e, s')) :
    s'.plan.length < s.plan.length ∧ s'.data = s.data := by
  fun_induction readPatiently s size with
  | case1 => simp at h
  | case2 s e₀ s₀ hr _ ih =>
    obtain ⟨hp, hd⟩ := read_error hr
    obtain ⟨hlt, hdata⟩ := ih h
    exact ⟨by rw [hp, List.length_cons]; omega, hdata.trans hd⟩
  | case3 s e₀ s₀ hr _ =>
    obtain ⟨hp, hd⟩ := read_error hr
    simp at h
    rw [← h.2, hp]
    exact ⟨by simp, hd⟩

/-- A patient request that succeeds hands out the bytes that come next. -/
theorem readPatiently_ok {bs : Bytes} (h : s.readPatiently size = (.ok bs, s')) :
    s.data = bs ++ s'.data ∧ bs.length ≤ size ∧ s'.plan.length ≤ s.plan.length := by
  fun_induction readPatiently s size with
  -- the first request is answered
  | case1 s bs₀ s₀ hr =>
    simp at h
    obtain ⟨hd, hl, hp⟩ := read_ok hr
    rw [← h.1, ← h.2, hp]
    exact ⟨hd, hl, by simp⟩
  -- it is interrupted, which moves no byte, and the request is made again
  | case2 s e₀ s₀ hr _ ih =>
    obtain ⟨hp, hd⟩ := read_error hr
    obtain ⟨hdata, hl, hlen⟩ := ih h
    exact ⟨hd ▸ hdata, hl, by rw [hp, List.length_cons]; omega⟩
  | case3 => simp at h

end ReadPatiently

/-! ### The stream of a source

A reader that asks for `size` bytes at a time gets to see the bytes that come before the first request
that is answered with nothing. -/

/-- The bytes that requests for `size` bytes get out of `data` under a plan, **up to the first answer of
nothing**. Requests that fail hand out nothing and end nothing. -/
def streamOf (size : Nat) : List Transfer → Bytes → Bytes
  | [], data => if size = 0 then [] else data
  | .fail _ :: plan, data => streamOf size plan data
  | .upTo count :: plan, data =>
    if min count size = 0 then []
    else data.take (min count size) ++ streamOf size plan (data.drop (min count size))

/-- The bytes that a source hands out before it first answers with nothing, when it is asked for `size`
bytes at a time. -/
def stream (s : ByteSource) (size : Nat) : Bytes := streamOf size s.plan s.data

/-- The stream of an empty source is empty. -/
@[simp] theorem streamOf_nil (size : Nat) (plan : List Transfer) : streamOf size plan [] = [] := by
  induction plan with
  | nil => simp [streamOf]
  | cons t plan ih => cases t <;> simp [streamOf, ih]

/-- A request that fails leaves the stream as it is. -/
theorem stream_of_read_error {s s' : ByteSource} {size : Nat} {e : StreamError}
    (h : s.read size = (.error e, s')) : s.stream size = s'.stream size := by
  obtain ⟨hp, hd⟩ := read_error h
  rw [stream, stream, hp, hd, streamOf]

/-- A request that is answered with bytes takes them off the stream; an answer of nothing is given only
where the stream ends. -/
theorem stream_of_read_ok {s s' : ByteSource} {size : Nat} {bs : Bytes}
    (h : s.read size = (.ok bs, s')) :
    s.stream size = if bs = [] then [] else bs ++ s'.stream size := by
  rcases hp : s.plan with _ | ⟨count | _, plan⟩ <;>
    simp only [read, hp, deliver, Prod.mk.injEq, Except.ok.injEq, reduceCtorEq, false_and] at h
  · obtain ⟨rfl, rfl⟩ := h
    rcases size with _ | size <;> cases hd : s.data <;> simp [stream, streamOf, hp, hd]
  · obtain ⟨rfl, rfl⟩ := h
    rcases hm : min count size with _ | m <;> cases hd : s.data <;>
      simp [stream, streamOf, hp, hm, hd]

end ByteSource

end RecordSort
