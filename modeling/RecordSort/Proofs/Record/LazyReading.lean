import RecordSort.Proofs.Record.PlainDecoder

/-! # A reader reads lazily

A reader asks its source only when it has to: when what it holds has no delimiter, so that the next record
may not be there as a whole, and when it does not know that the source is at its end. Hence a record is
always found in the last bytes that were handed out, and little is held behind it.

* **`Needed`** — every request in a row was needed when it was made.
* **`RecordReader.CutsOff`** — what an answer takes off the bytes that are held.
* **`RecordReader.Reads`** — what a call asks for and what it takes; **`reads_search`** says it of a search.
* **`RecordReader.FewHeld`** — how much is held between calls; **`fewHeld_search`**.
* **`HandedOn`** — the bytes handed out are the records that were answered, and the bytes held.
* **`reads_lazily`** — any number of calls, and one more. -/

namespace RecordSort

/-- **Every request of a row was needed.** Before the first one, `held` was held, and `ended` tells whether
the source had answered with nothing. At each request, what was held then had no delimiter, and the source
had not answered with nothing. -/
def Needed (d : UInt8) (held : Bytes) (ended : Prop) (given : List SourceAnswer) : Prop :=
  ∀ early a late, given = early ++ a :: late →
    d ∉ held ++ handedOut early ∧ ¬ ended ∧ .ok [] ∉ early

section Needed

variable {d : UInt8} {held : Bytes} {ended : Prop} {given given' : List SourceAnswer}

/-- Where nothing was requested, every request was needed. -/
theorem needed_nil : Needed d held ended [] := by
  intro early a late heq
  simp at heq

/-- A single request is needed as long as no delimiter is held and the source has not ended. -/
theorem needed_singleton (hheld : d ∉ held) (hended : ¬ ended) (a : SourceAnswer) :
    Needed d held ended [a] := by
  intro early b late heq
  obtain rfl : early = [] := by
    cases early with
    | nil => rfl
    | cons c early => simp at heq
  exact ⟨by simpa using hheld, hended, List.not_mem_nil⟩

/-- Requests that were needed, and others that were needed after them. -/
theorem Needed.append (h : Needed d held ended given)
    (h' : Needed d (held ++ handedOut given) (ended ∨ .ok [] ∈ given) given') :
    Needed d held ended (given ++ given') := by
  intro early a late heq
  rcases List.append_eq_append_iff.1 heq with ⟨between, rfl, hlate⟩ | ⟨between, rfl, hlate⟩
  -- the request is one of the later ones
  · obtain ⟨hheld, hended, hmem⟩ := h' between a late hlate
    rw [not_or] at hended
    refine ⟨by simpa using hheld, hended.1, ?_⟩
    rw [List.mem_append, not_or]
    exact ⟨hended.2, hmem⟩
  · cases between with
    | nil =>
      obtain ⟨hheld, hended, -⟩ := h' [] a late hlate.symm
      rw [not_or] at hended
      exact ⟨by simpa using hheld, hended.1, by simpa using hended.2⟩
    | cons b between =>
      obtain ⟨rfl, -⟩ := List.cons.inj hlate
      exact h early a between rfl

end Needed

/-- **A patient request** is needed as a whole, since it holds no more until it is answered. -/
theorem needed_readPatiently {s s' : ByteSource} {size : Nat} {a : SourceAnswer}
    (h : s.readPatiently size = (a, s')) {d : UInt8} {held : Bytes} (hheld : d ∉ held) :
    ∃ given, ByteSource.Gives size s given s' ∧ Needed d held False given := by
  fun_induction ByteSource.readPatiently s size with
  | case1 s bs s₀ hr =>
    obtain ⟨rfl, rfl⟩ := Prod.mk.inj h
    exact ⟨[.ok bs], .request hr (.none _), needed_singleton hheld not_false _⟩
  | case2 s e s₀ hr _ ih =>
    obtain ⟨given, hgives, hneeded⟩ := ih h
    refine ⟨[.error e] ++ given, .request hr hgives, ?_⟩
    exact (needed_singleton hheld not_false _).append (by simpa using hneeded)
  | case3 s e s₀ hr _ =>
    obtain ⟨rfl, rfl⟩ := Prod.mk.inj h
    exact ⟨[.error e], .request hr (.none _), needed_singleton hheld not_false _⟩

namespace RecordReader

/-- What an answer **cuts off the bytes held** at the end of a call. The record is followed by its
delimiter, or it is all that is held and the source is at its end. -/
def CutsOff (d : UInt8) (held : Bytes) : RecordAnswer × RecordReader → Prop
  | (.ok none, r') => held = [] ∧ r'.pending = []
  | (.ok (some p), r') =>
    held = p ++ d :: r'.pending ∨ held = p ∧ p ≠ [] ∧ r'.pending = [] ∧ r'.ended = true
  | (.error _, r') => r'.pending = held

/-- **A call, request by request**: what the source has answered, that the requests were needed, and what
was cut off the bytes held. -/
structure Reads (r : RecordReader) (given : List SourceAnswer) (out : RecordAnswer × RecordReader) :
    Prop where
  asks : r.Asks out.2 given
  needed : Needed r.delimiter r.pending (r.ended = true) given
  cutsOff : CutsOff r.delimiter (r.pending ++ handedOut given) out

variable {r r' : RecordReader} {i j : Nat}

/-- A refill leaves the source as its patient request does. -/
theorem source_of_fill {outcome : Except StreamError Unit} (h : r.fill = (outcome, r')) :
    r'.source = (r.source.readPatiently r.refill).2 := by
  rcases hread : r.source.readPatiently r.refill with ⟨e | _ | ⟨b, bs⟩, source⟩ <;>
    simp only [fill, receive, hread, Prod.mk.injEq] at h <;> rw [← h.2]

/-- **A refill** makes the requests that are needed, and what they bring is added to what is pending. -/
theorem reads_fill {outcome : Except StreamError Unit} (hended : r.ended = false)
    (hnone : r.delimiter ∉ r.pending) (h : r.fill = (outcome, r')) :
    ∃ given, r.Asks r' given ∧ Needed r.delimiter r.pending (r.ended = true) given ∧
      r'.pending = r.pending ++ handedOut given := by
  obtain ⟨given, hasks, -⟩ := asks_fill hended h
  obtain ⟨given', hgives, hneeded⟩ :=
    needed_readPatiently (Prod.eta (r.source.readPatiently r.refill)).symm hnone
  rw [← source_of_fill h] at hgives
  obtain rfl : given = given' := hasks.source.eq_of_gives hgives
  refine ⟨given, hasks, by simpa [hended] using hneeded, ?_⟩
  -- bytes move from the source to the buffer, and none is lost
  have hmoved : r'.pending ++ r'.source.data = r.pending ++ r.source.data := by
    rcases outcome with e | _
    · exact (fill_error h).1
    · exact (fill_ok h).1
  rw [hasks.source.data_eq, ← List.append_assoc] at hmoved
  exact List.append_cancel_right hmoved

/-- A round that decides the answer. -/
theorem reads_of_step_done (hscan : r.Scanned i) {answer : RecordAnswer}
    (h : r.step i = .done answer r') : ∃ given, r.Reads given (answer, r') := by
  rcases step_eq_done h with ⟨stop, hfound, rfl, rfl⟩ | ⟨hnone, hcases⟩
  · refine ⟨[], r.asks_setPosition _, needed_nil, Or.inl ?_⟩
    rw [handedOut_nil, List.append_nil]
    exact hscan.pending_of_indexFrom_some hfound
  rcases hcases with ⟨hended, hle, rfl, rfl⟩ | ⟨hended, hlt, rfl, rfl⟩ | ⟨hended, e, rfl, hfill⟩
  · have hnil : r'.pending = [] := by simp [pending, hle]
    exact ⟨[], r'.asks_setPosition _, needed_nil, by simpa using hnil, hnil⟩
  · have hall := InRange.pending_eq_extract (hscan.of_indexFrom_none hnone).start
    have hne : r.pending ≠ [] := by
      rw [← List.length_pos_iff, length_pending]
      omega
    refine ⟨[], r.asks_setPosition _, needed_nil, Or.inr ⟨?_, hall ▸ hne, by simp [pending], hended⟩⟩
    rw [handedOut_nil, List.append_nil, hall]
  · obtain ⟨given, hasks, hneeded, hpending⟩ :=
      reads_fill hended (hscan.not_mem_pending hnone) hfill
    exact ⟨given, hasks, hneeded, hpending⟩

/-- **A search makes no request that is not needed**, and cuts one record off what is held. -/
theorem reads_search (hscan : r.Scanned i) : ∃ given, r.Reads given (r.search i) := by
  fun_induction search r i with
  | case1 r i answer r' hstep => exact reads_of_step_done hscan hstep
  | case2 r i r' j hstep ih =>
    obtain ⟨hnone, hended, hfill, -⟩ := step_eq_more hstep
    obtain ⟨-, hsettings, hscan', -⟩ := scanned_of_step_more hscan hstep
    obtain ⟨given, hasks, hneeded, hpending⟩ :=
      reads_fill hended (hscan.not_mem_pending hnone) hfill
    obtain ⟨given', hasks', hneeded', hcuts⟩ := ih hscan'
    rw [hpending, hsettings.delimiter] at hneeded' hcuts
    refine ⟨given ++ given', hasks.trans hasks', hneeded.append ?_, ?_⟩
    · rwa [← hasks.ended]
    · rwa [handedOut_append, ← List.append_assoc]

/-! ## How much is held -/

/-- Between calls **little is held**: less than a refill, unless a call has failed in the middle of a
record, and then no delimiter is among it. -/
def FewHeld (r : RecordReader) : Prop :=
  r.pending.length < r.refill ∨ r.delimiter ∉ r.pending

/-- A refill adds at most as many bytes as it asks for. -/
theorem length_pending_of_fill_ok (h : r.fill = (.ok (), r')) :
    r'.pending.length ≤ r.pending.length + r.refill := by
  have hsource := source_of_fill h
  -- what the buffer has gained the source has lost
  have hmoved := congrArg List.length (fill_ok h).1
  rcases hread : r.source.readPatiently r.refill with ⟨e | bs, source⟩
  · simp [fill, receive, hread] at h
  · obtain ⟨hdata, hle, -⟩ := ByteSource.readPatiently_ok hread
    rw [hsource, hread, hdata] at hmoved
    simp only [List.length_append] at hmoved
    omega

/-- A refill that fails adds none. -/
theorem pending_of_fill_error {e : StreamError} (h : r.fill = (.error e, r')) :
    r'.pending = r.pending := by
  have hsource := source_of_fill h
  have hmoved := (fill_error h).1
  rcases hread : r.source.readPatiently r.refill with ⟨e' | bs, source⟩
  · rw [hsource, hread, (ByteSource.readPatiently_error hread).2] at hmoved
    exact List.append_cancel_right hmoved
  · cases bs <;> simp [fill, receive, hread] at h

/-- A round that decides the answer leaves **less than a refill**, unless it fails. -/
theorem fewHeld_of_step_done (hscan : r.Scanned i)
    (hfew : r.buffer.size - i ≤ r.refill ∨ r.delimiter ∉ r.pending) {answer : RecordAnswer}
    (h : r.step i = .done answer r') :
    (∀ a, answer = .ok a → r'.pending.length < r.refill) ∧
      ∀ e, answer = .error e → r.delimiter ∉ r'.pending := by
  have hpos : 0 < r.refill := Nat.le_max_right r.capacity 1
  rcases step_eq_done h with ⟨stop, hfound, rfl, rfl⟩ | ⟨hnone, hcases⟩
  -- a record is found among the bytes that have not been searched, and what is held is behind it
  · obtain ⟨hle, hget⟩ := indexFrom_eq_some hfound
    have hlt : stop < r.buffer.size := (Array.getElem?_eq_some_iff.1 hget).1
    refine ⟨fun _ _ => ?_, fun e he => by simp at he⟩
    rw [length_pending]
    rcases hfew with hfew | hnot
    · dsimp only
      omega
    · rw [hscan.pending_of_indexFrom_some hfound] at hnot
      simp at hnot
  rcases hcases with ⟨-, hle, rfl, rfl⟩ | ⟨-, -, rfl, rfl⟩ | ⟨hended, e, rfl, hfill⟩
  · refine ⟨fun _ _ => ?_, fun e he => by simp at he⟩
    rw [length_pending]
    omega
  · refine ⟨fun _ _ => ?_, fun e he => by simp at he⟩
    rw [length_pending]
    dsimp only
    omega
  -- the refill has failed, and what is held is what was held
  · refine ⟨fun a ha => by simp at ha, fun _ _ => ?_⟩
    rw [pending_of_fill_error hfill]
    exact hscan.not_mem_pending hnone

/-- **A search leaves little**, if the bytes that have not been searched are no more than a refill, or hold
no delimiter. -/
theorem fewHeld_search (hscan : r.Scanned i)
    (hfew : r.buffer.size - i ≤ r.refill ∨ r.delimiter ∉ r.pending) :
    (∀ a, (r.search i).1 = .ok a → (r.search i).2.pending.length < r.refill) ∧
      ∀ e, (r.search i).1 = .error e → r.delimiter ∉ (r.search i).2.pending := by
  fun_induction search r i with
  | case1 r i answer r' hstep => exact fewHeld_of_step_done hscan hfew hstep
  | case2 r i r' j hstep ih =>
    obtain ⟨-, -, hfill, rfl⟩ := step_eq_more hstep
    obtain ⟨-, hsettings, hscan', -⟩ := scanned_of_step_more hscan hstep
    have hrefill := hsettings.refill_eq
    -- only the bytes that have just been handed out have not been searched
    have hlength := length_pending_of_fill_ok hfill
    obtain ⟨-, h0, -⟩ := fill_ok hfill
    rw [length_pending, length_pending, h0, ← hrefill] at hlength
    have hsearch := ih hscan' (Or.inl (by omega))
    rwa [hrefill, hsettings.delimiter] at hsearch

/-- **A call leaves less than a refill**, unless it fails. -/
theorem fewHeld_next (h : r.InRange) (hfew : r.FewHeld) :
    r.next.2.FewHeld ∧ ∀ a, r.next.1 = .ok a → r.next.2.pending.length < r.refill := by
  obtain ⟨hok, herror⟩ := fewHeld_search h.scanned (by
    rcases hfew with hlt | hnot
    · rw [length_pending] at hlt
      exact Or.inl (Nat.le_of_lt hlt)
    · exact Or.inr hnot)
  obtain ⟨-, hsettings, -, -⟩ := answers_next h
  have hrefill := hsettings.refill_eq
  refine ⟨?_, hok⟩
  rw [FewHeld, hrefill, hsettings.delimiter]
  cases hn : r.next.1 with
  | ok a => exact Or.inl (hok a hn)
  | error e => exact Or.inr (herror e hn)

end RecordReader

/-! ## Any number of calls -/

/-- **What has been handed on**: the bytes that a source has handed out are the records among the answers,
each with a delimiter behind it, and then `held`. The last record may lack its delimiter, and then the
source has answered that it is at its end and nothing is held. -/
def HandedOn (d : UInt8) (given : List SourceAnswer) (answers : List RecordAnswer) (held : Bytes) :
    Prop :=
  handedOut given = encode d (answers.filterMap recordOf) ++ held ∨
    handedOut given ++ [d] = encode d (answers.filterMap recordOf) ∧ held = [] ∧ .ok [] ∈ given

/-- **One more call** hands on what it cuts off. -/
theorem HandedOn.next {d : UInt8} {before given : List SourceAnswer} {answers : List RecordAnswer}
    {held : Bytes} {out : RecordAnswer × RecordReader} (h : HandedOn d before answers held)
    (hcuts : RecordReader.CutsOff d (held ++ handedOut given) out)
    (hended : out.2.ended = true → .ok [] ∈ before ++ given)
    (hlast : .ok [] ∈ before → given = []) :
    HandedOn d (before ++ given) (answers ++ [out.1]) out.2.pending := by
  rcases h with hout | ⟨hout, rfl, hend⟩
  · have hall : handedOut (before ++ given) =
        encode d (answers.filterMap recordOf) ++ (held ++ handedOut given) := by
      rw [handedOut_append, hout, List.append_assoc]
    rcases out with ⟨e | _ | p, r'⟩
    · rw [← (hcuts : r'.pending = held ++ handedOut given)] at hall
      exact Or.inl (by simpa [List.filterMap_cons, recordOf] using hall)
    · obtain ⟨hheld, hpending⟩ : held ++ handedOut given = [] ∧ r'.pending = [] := hcuts
      rw [hheld, ← hpending] at hall
      exact Or.inl (by simpa [List.filterMap_cons, recordOf] using hall)
    · rcases hcuts with hcut | ⟨hcut, -, hpending, hended'⟩
      · exact Or.inl (by simp [hall, hcut, recordOf, encode_append, encode_cons])
      -- the last record has no delimiter behind it
      · refine Or.inr ⟨?_, hpending, hended hended'⟩
        simp [hall, hcut, recordOf, encode_append, encode_cons]
  -- nothing is held, and nothing comes any more
  · obtain rfl := hlast hend
    rw [List.append_nil]
    rcases out with ⟨e | _ | p, r'⟩
    · exact Or.inr ⟨by simpa [List.filterMap_cons, recordOf] using hout, hcuts, hend⟩
    · exact Or.inr ⟨by simpa [List.filterMap_cons, recordOf] using hout, hcuts.2, hend⟩
    · rcases hcuts with hcut | ⟨hcut, hne, -, -⟩
      · simp at hcut
      · exact absurd hcut.symm hne

namespace RecordReader

/-- What the calls to a reader have led to, if it had not read before: `before` is what its source has
answered, and what is pending is what has been handed out and not handed on. -/
structure Reached (r reader : RecordReader) (answers : List RecordAnswer)
    (before : List SourceAnswer) : Prop where
  asks : r.Asks reader before
  delimiter : reader.delimiter = r.delimiter
  inRange : reader.InRange
  fewHeld : reader.FewHeld
  handedOn : HandedOn r.delimiter before answers reader.pending

variable {r reader : RecordReader} {answers : List RecordAnswer} {before : List SourceAnswer}

/-- Before it has read, a reader holds nothing. -/
theorem Fresh.reached (h : r.Fresh) : r.Reached r [] [] where
  asks := r.asks_setPosition r.position
  delimiter := rfl
  inRange := h.inRange
  fewHeld := Or.inl (by
    have hpos : 0 < r.refill := Nat.le_max_right r.capacity 1
    simpa [h.buffer] using hpos)
  handedOn := Or.inl (by simp [pending, h.buffer])

/-- **One more call**: the requests that it makes are needed, and what is handed on is cut off. -/
theorem Reached.next (h : r.Reached reader answers before) (hfresh : r.Fresh) :
    ∃ given, reader.Asks reader.next.2 given ∧
      (∀ early a late, given = early ++ a :: late →
        r.delimiter ∉ reader.pending ++ handedOut early ∧ .ok [] ∉ before ++ early) ∧
      r.Reached reader.next.2 (answers ++ [reader.next.1]) (before ++ given) := by
  obtain ⟨given, hasks, hneeded, hcuts⟩ := reads_search h.inRange.scanned
  rw [h.delimiter] at hneeded hcuts
  obtain ⟨-, hsettings, hrange, -⟩ := answers_next h.inRange
  have hended : reader.ended = true ↔ .ok [] ∈ before := by
    rw [h.asks.ended, hfresh.ended]
    simp
  refine ⟨given, hasks, fun early a late heq => ?_, h.asks.trans hasks,
    hsettings.delimiter.trans h.delimiter, hrange, (fewHeld_next h.inRange h.fewHeld).1, ?_⟩
  · obtain ⟨hheld, hbefore, hearly⟩ := hneeded early a late heq
    rw [hended] at hbefore
    exact ⟨hheld, by rw [List.mem_append, not_or]; exact ⟨hbefore, hearly⟩⟩
  · refine h.handedOn.next hcuts (fun hend => ?_) fun hmem => ?_
    · rw [List.mem_append, ← hended]
      exact hasks.ended.1 hend
    -- behind an answer of nothing no request is needed
    · rcases given with _ | ⟨a, late⟩
      · rfl
      · exact absurd (hended.2 hmem) (hneeded [] a late rfl).2.1

/-- **Any number of calls** to a reader that has not read yet. -/
theorem Fresh.reached_after (h : r.Fresh) (n : Nat) :
    ∃ before, r.Reached (RecordFeed.after r n) (RecordFeed.answers r n) before := by
  induction n with
  | zero => exact ⟨[], h.reached⟩
  | succ n ih =>
    obtain ⟨before, hreached⟩ := ih
    obtain ⟨given, -, -, hnext⟩ := hreached.next h
    rw [RecordFeed.after_add, RecordFeed.answers_add]
    exact ⟨before ++ given, hnext⟩

/-- **A reader reads lazily**, whatever its source, capacity and delimiter. Of `n` calls and one more, let
`before` and `given` be what the source answers during the former and the latter, and `held` and `held'`
what it has handed out by then that has not been handed on.

* Each request asks for the capacity, or for one byte if that is 0.
* The requests of the last call were needed: what was held before each of them had no delimiter, and the
  source had never answered with nothing.
* A call that does not fail leaves less than a refill held.
* So with a capacity of at most 1 nothing is held, and where the source is taken from the reader, it goes on
  with the very next byte, and a new reader of any capacity and delimiter decodes what follows. -/
theorem reads_lazily (source : ByteSource) (capacity : Nat) (d : UInt8) (n : Nat) :
    let r : RecordReader := { source := source, capacity := capacity, delimiter := d }
    let size := max capacity 1
    let reader := RecordFeed.after r n
    let out := reader.next
    ∃ before given held held',
      (ByteSource.Gives size source before reader.source ∧
        ByteSource.Gives size reader.source given out.2.source ∧
        out.2.source.requests = List.replicate (before.length + given.length) size ++ source.requests) ∧
      (HandedOn d before (RecordFeed.answers r n) held ∧
        HandedOn d (before ++ given) (RecordFeed.answers r (n + 1)) held') ∧
      (∀ early a late, given = early ++ a :: late →
        d ∉ held ++ handedOut early ∧ .ok [] ∉ before ++ early) ∧
      (∀ answer, out.1 = .ok answer → held'.length < size) ∧
      (capacity ≤ 1 → ∀ answer, out.1 = .ok answer →
        held' = [] ∧ source.data = handedOut (before ++ given) ++ out.2.source.data ∧
          ∀ (capacity' : Nat) (d' : UInt8) (calls : List ReaderCall),
            let r' : RecordReader :=
              { source := out.2.source, capacity := capacity', delimiter := d' }
            let size' := max capacity' 1
            (out.2.source.EndsWithData size' → out.2.source.stream size' = out.2.source.data) ∧
              ∃ left,
                PlainRun d' (out.2.source.stream size') calls (r'.perform calls).1 left) := by
  intro r size reader out
  have hfresh : r.Fresh := ⟨rfl, rfl, rfl⟩
  obtain ⟨before, hreached⟩ := hfresh.reached_after n
  obtain ⟨given, hasks, hneeded, hnext⟩ := hreached.next hfresh
  have hanswers : RecordFeed.answers r (n + 1) = RecordFeed.answers r n ++ [out.1] :=
    RecordFeed.answers_add r n 1
  have hgives : ByteSource.Gives size source (before ++ given) out.2.source := hnext.asks.source
  have hfew : ∀ answer, out.1 = .ok answer → out.2.pending.length < size := by
    intro answer hok
    have hlt := (fewHeld_next hreached.inRange hreached.fewHeld).2 answer hok
    rwa [hreached.asks.refill_eq] at hlt
  have hgiven : ByteSource.Gives size reader.source given out.2.source := by
    have hsource := hasks.source
    rwa [hreached.asks.refill_eq] at hsource
  refine ⟨before, given, reader.pending, out.2.pending, ⟨hreached.asks.source, hgiven, ?_⟩,
    ⟨hreached.handedOn, hanswers ▸ hnext.handedOn⟩, hneeded, hfew, fun hcapacity answer hok =>
      ⟨?_, hgives.data_eq, fun capacity' d' calls => ⟨?_, ?_⟩⟩⟩
  · rw [hgives.requests_eq, List.length_append]
  · have hlt := hfew answer hok
    exact List.length_eq_zero_iff.1 (by omega)
  · exact ByteSource.stream_eq_data_of_endsWithData (Nat.le_max_right capacity' 1)
  · have hfresh' : Fresh { source := out.2.source, capacity := capacity', delimiter := d' } :=
      ⟨rfl, rfl, rfl⟩
    obtain ⟨hrun, -⟩ := plainRun_of_inRange hfresh'.inRange calls
    rw [hfresh'.remaining_eq_stream] at hrun
    exact ⟨_, hrun⟩

/-- A failure in the middle of a record and an interruption: when the first record has been answered,
nothing behind its delimiter has been asked for, and a new reader decodes the other byte. -/
theorem reads_lazily_failureInRecord :
    let source : ByteSource :=
      { data := [97, 59, 98]
        plan := [.upTo 1, .fail (.reported .timedOut "late"), .fail (.reported .interrupted "again")] }
    let r : RecordReader := { source := source, capacity := 0, delimiter := 59 }
    let out := (RecordFeed.after r 1).next
    recordOf out.1 = some [97] ∧ out.2.source.data = [98] ∧
      out.2.source.requests = [1, 1, 1, 1] ∧
      ∃ left, PlainRun newline [98] [.next, .next]
        (({ source := out.2.source } : RecordReader).perform [.next, .next]).1 left := by
  intro source r out
  obtain ⟨before, given, held, held', -, -, -, -, hlast⟩ := reads_lazily source 0 59 1
  have hrecord : recordOf out.1 = some [97] := by decide +kernel
  have hdata : out.2.source.data = [98] := by decide +kernel
  have hplan : out.2.source.plan = [] := by decide +kernel
  have hlog : out.2.source.requests = [1, 1, 1, 1] := by decide +kernel
  have hok : out.1 = .ok (some [97]) := by
    cases hanswer : out.1 with
    | ok answer => rw [hanswer] at hrecord; exact congrArg _ hrecord
    | error e => rw [hanswer] at hrecord; contradiction
  obtain ⟨-, -, hnew⟩ := hlast (by decide) _ hok
  obtain ⟨hstream, left, hrun⟩ := hnew defaultCapacity newline [.next, .next]
  have hends : out.2.source.EndsWithData (max defaultCapacity 1) :=
    ByteSource.endsWithData_of_not_mem (by decide) (by simp [hplan])
  rw [hstream hends, hdata] at hrun
  exact ⟨hrecord, hdata, hlog, left, hrun⟩

end RecordReader

end RecordSort
