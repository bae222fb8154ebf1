import RecordSort.Record.Feed

/-! # How often a reader asks its source

A request uses up an entry of the source's plan, or it is answered with bytes, or it is answered with
nothing, and then it is the last one. So a reader cannot ask more often than there are entries and bytes
left, and once more to learn that the source is at its end. No capacity changes this, since one byte at
least is asked for; and so the calls to a reader come to the end of its records and errors.

* **`ByteSource.asked_read`**, **`asked_readPatiently`** — what a request is paid with.
* **`RecordReader.lifetime`** — the requests made so far and those that may still be made;
  **`lifetime_fill`**, **`lifetime_search`**, **`lifetime_after`** say that nothing adds to them.
* **`RecordReader.Progress.after`** — a number of rounds; **`after_of_rounds_le`** says that they come to the
  answer of the search.
* **`exists_none`** — a finite feed comes to answer that there is no record.
* **`requests_bounded`** — what a reader in any state asks for. -/

namespace RecordSort

universe u

namespace ByteSource

/-- The requests that a source can still answer **with something**: each uses up an entry of the plan or a
byte. -/
def budget (s : ByteSource) : Nat := s.plan.length + s.data.length

/-- Only an answer of nothing may be **unpaid**: it may have used up neither an entry nor a byte. -/
def unpaid : Except StreamError Bytes → Nat
  | .ok [] => 1
  | _ => 0

variable {s s' : ByteSource} {size : Nat} {a : Except StreamError Bytes}

/-- **A request is paid for** by an entry of the plan or by a byte, unless it is answered with nothing. -/
theorem asked_read (h : s.read size = (a, s')) :
    s'.requests.length + s'.budget ≤ s.requests.length + s.budget + unpaid a := by
  have hrequests : s'.requests = size :: s.requests := by rw [← requests_read, h]
  rw [hrequests, List.length_cons, budget, budget]
  rcases a with e | _ | ⟨b, bs⟩
  · obtain ⟨hplan, hdata⟩ := read_error h
    rw [hplan, hdata, List.length_cons]
    omega
  · obtain ⟨hdata, -, hplan⟩ := read_ok h
    rw [hplan, hdata, List.length_tail, List.nil_append, unpaid]
    omega
  · obtain ⟨hdata, -, hplan⟩ := read_ok h
    rw [hplan, hdata, List.length_tail, List.length_append, List.length_cons]
    omega

/-- The same for a request that is made again while it is interrupted. -/
theorem asked_readPatiently (h : s.readPatiently size = (a, s')) :
    s'.requests.length + s'.budget ≤ s.requests.length + s.budget + unpaid a := by
  fun_induction readPatiently s size with
  | case1 s bs s₀ hr =>
    obtain ⟨rfl, rfl⟩ := Prod.mk.inj h
    exact asked_read hr
  | case2 s e s₀ hr _ ih =>
    have hfirst : _ ≤ s.requests.length + s.budget := asked_read hr
    have hrest := ih h
    omega
  | case3 s e s₀ hr _ =>
    obtain ⟨rfl, rfl⟩ := Prod.mk.inj h
    exact asked_read hr

end ByteSource

/-! ## Readers -/

namespace RecordReader

/-- The requests that a reader has made so far, and those that it **may still make**. -/
def lifetime (r : RecordReader) : Nat := r.source.requests.length + r.rounds

variable {r r' : RecordReader} {i j : Nat}

/-- **A refill** adds no request: an answer of nothing is the last one. -/
theorem lifetime_fill {outcome : Except StreamError Unit} (hended : r.ended = false)
    (h : r.fill = (outcome, r')) : r'.lifetime ≤ r.lifetime := by
  rcases hread : r.source.readPatiently r.refill with ⟨a, source⟩
  have hasked := ByteSource.asked_readPatiently hread
  rcases a with e | _ | ⟨b, bs⟩ <;> simp only [fill, receive, hread, Prod.mk.injEq] at h <;>
    obtain ⟨-, rfl⟩ := h <;>
    simp only [ByteSource.budget, ByteSource.unpaid] at hasked <;>
    simp [lifetime, rounds, hended] <;> omega

/-- A round that goes on adds no request. -/
theorem lifetime_of_step_more (h : r.step i = .more r' j) : r'.lifetime ≤ r.lifetime := by
  obtain ⟨-, hended, hfill, -⟩ := step_eq_more h
  exact lifetime_fill hended hfill

/-- A round that decides the answer adds no request. -/
theorem lifetime_of_step_done {answer : RecordAnswer} (h : r.step i = .done answer r') :
    r'.lifetime ≤ r.lifetime := by
  rcases step_eq_done h with ⟨stop, -, -, rfl⟩ |
    ⟨-, ⟨-, -, -, rfl⟩ | ⟨-, -, -, rfl⟩ | ⟨hended, e, -, hfill⟩⟩
  · exact Nat.le_refl _
  · exact Nat.le_refl _
  · exact Nat.le_refl _
  · exact lifetime_fill hended hfill

/-- **A search** does not add to the requests that are made and may still be made. -/
theorem lifetime_search (r : RecordReader) (i : Nat) : (r.search i).2.lifetime ≤ r.lifetime := by
  fun_induction search r i with
  | case1 r i answer r' hstep => exact lifetime_of_step_done hstep
  | case2 r i r' j hstep ih => exact Nat.le_trans ih (lifetime_of_step_more hstep)

/-- What `k` **more rounds** lead to. None is made once the call is answered. -/
def Progress.after : Progress → Nat → Progress
  | .done answer r, _ => .done answer r
  | .more r scanned, 0 => .more r scanned
  | .more r scanned, k + 1 => (r.step scanned).after k

/-- **The rounds come to an end**: as many as a reader can still take lead to the answer. -/
theorem after_of_rounds_le {k : Nat} (h : r.rounds ≤ k) :
    (r.step i).after k = .done (r.search i).1 (r.search i).2 := by
  fun_induction search r i generalizing k with
  | case1 r i answer r' hstep => rw [hstep, Progress.after]
  | case2 r i r' j hstep ih =>
    have hlt := rounds_lt_of_step hstep
    obtain ⟨k, rfl⟩ : ∃ k', k = k' + 1 := ⟨k - 1, by omega⟩
    rw [hstep, Progress.after]
    exact ih (by omega)

/-- **Any number of calls** add no request. -/
theorem lifetime_after (r : RecordReader) (n : Nat) :
    (RecordFeed.after r n).lifetime ≤ r.lifetime := by
  induction n generalizing r with
  | zero => exact Nat.le_refl _
  | succ n ih => exact Nat.le_trans (ih r.next.2) (r.lifetime_search r.position)

end RecordReader

/-! ## The end of a feed -/

/-- **A finite feed comes to the end** of its records and errors. -/
theorem exists_none {φ : Type u} [RecordFeed φ] [FiniteFeed φ] (f : φ) :
    ∃ n, n ≤ FiniteFeed.weight f ∧ (RecordFeed.next (RecordFeed.after f n)).1 = .ok none := by
  induction hw : FiniteFeed.weight f using Nat.strongRecOn generalizing f with
  | ind w ih =>
    by_cases hnone : (RecordFeed.next f).1 = .ok none
    · exact ⟨0, Nat.zero_le _, hnone⟩
    · have hlt := FiniteFeed.weight_next_lt f hnone
      obtain ⟨n, hn, hend⟩ := ih _ (hw ▸ hlt) (RecordFeed.next f).2 rfl
      exact ⟨n + 1, by omega, hend⟩

/-- **What a reader asks for**, in any state and with any capacity and delimiter. However often it is
called, it asks its source no more often than there are entries in the source's plan and bytes left, and
once more; one call is the case `n = 1`. A call is answered after as many rounds at most. And after no more
records and errors than there are entries and bytes, those pending included, the answer is that there is no
record. -/
theorem RecordReader.requests_bounded (r : RecordReader) :
    (∀ n, (RecordFeed.after r n).source.requests.length ≤
        r.source.requests.length + (r.source.plan.length + r.source.data.length + 1)) ∧
      (r.step r.position).after (r.source.plan.length + r.source.data.length + 1) =
        .done r.next.1 r.next.2 ∧
      ∃ n, n ≤ r.source.plan.length + r.source.data.length + r.pending.length ∧
        (RecordFeed.after r n).next.1 = .ok none := by
  have hrounds : r.rounds ≤ r.source.plan.length + r.source.data.length + 1 := by
    rw [rounds]
    split <;> omega
  refine ⟨fun n => ?_, after_of_rounds_le hrounds, ?_⟩
  · have hlife := r.lifetime_after n
    simp only [lifetime] at hlife
    omega
  · obtain ⟨n, hn, hnone⟩ := exists_none r
    have hweight : FiniteFeed.weight r =
        r.source.plan.length + r.source.data.length + r.pending.length := by
      show r.weight = _
      rw [weight, List.length_append]
      omega
    exact ⟨n, hweight ▸ hn, hnone⟩

end RecordSort
