import Mathlib.Data.Nat.PSub
import RecordSort.Record.Calls
import RecordSort.Proofs.Record.Reading
import RecordSort.Proofs.Record.RequestBound

/-! # A search goes on where it stopped

A search that finds no delimiter asks for more bytes and goes on behind those that it has searched. The
index at which it goes on is told before the refill and used after it, and the refill moves the bytes: what
is pending goes to the front of the buffer, room is made behind it, and what the source has not filled is
cut off again. Here it is shown that no byte is passed over and that no index leaves the buffer.

For the latter, a call is written down a second time with nothing taken for granted. Every piece that is
cut out of the buffer, every difference and every transfer into the buffer is *checked*, and the call fails
if one of them is out of range.

* **`slice?`**, **`overwrite?`** — a piece of an array is cut out or written over.
* **`RecordReader.fill?`**, **`step?`**, **`searchWithin`** — the checked refill, round and search;
  **`fill?_eq_some`**, **`step?_eq_some`**, **`searchWithin_eq_some`** say that they are the plain ones.
* **`indexFrom_eq_of_ne`** — a search may start behind bytes that are not searched for.
* **`Scanned.after`** — every round of a call starts behind bytes without a delimiter.
* **`inRange_perform`** — the position stays within the buffer.
* **`resumes_in_range`** — all of this for any calls. -/

namespace RecordSort

/-! ## Searching an array -/

section Search

variable {bytes : Array UInt8} {b : UInt8} {i j : Nat}

/-- **Bytes that are not searched for may be passed over**: a search from behind them has the same answer. -/
theorem indexFrom_eq_of_ne (hij : i ≤ j) (h : ∀ k, i ≤ k → k < j → bytes[k]? ≠ some b) :
    indexFrom bytes b j = indexFrom bytes b i := by
  fun_induction indexFrom bytes b i with
  -- the byte at `i` is the one searched for, so nothing is passed over
  | case1 i hi hb =>
    obtain rfl : j = i := by
      by_contra hne
      exact h i (Nat.le_refl i) (by omega) (by simp [hi, hb])
    rw [indexFrom, dif_pos hi, if_pos hb]
  | case2 i hi hb ih =>
    by_cases hji : j = i
    · rw [hji, indexFrom, dif_pos hi, if_neg hb]
    · exact ih (by omega) fun k hk => h k (by omega)
  | case3 i hi => rw [indexFrom, dif_neg (by omega)]

/-- The bytes from an index within the array on. -/
theorem drop_toList_of_lt (hi : i < bytes.size) :
    bytes.toList.drop i = bytes[i] :: bytes.toList.drop (i + 1) := by
  rw [List.drop_eq_getElem_cons (by simpa using hi), Array.getElem_toList]

/-- The byte is found in the bytes from `i` on **where the search from `i` finds it**. -/
theorem map_idxOf?_drop (bytes : Array UInt8) (b : UInt8) (i : Nat) :
    ((bytes.toList.drop i).idxOf? b).map (i + ·) = indexFrom bytes b i := by
  fun_induction indexFrom bytes b i with
  | case1 i hi hb =>
    rw [drop_toList_of_lt hi, List.idxOf?_cons, if_pos (by simpa using hb)]
    rfl
  | case2 i hi hb ih =>
    have hshift : (i + ·) ∘ (· + 1) = (i + 1 + ·) := by
      funext offset
      simp only [Function.comp_apply]
      omega
    rw [drop_toList_of_lt hi, List.idxOf?_cons, if_neg (by simpa using hb), Option.map_map, hshift]
    exact ih
  | case3 i hi =>
    rw [List.drop_eq_nil_of_le (by simpa using hi)]
    rfl

end Search

/-! ## Checked pieces -/

/-- The **piece** of an array from `i` up to `j`, if both lie in the array and not the wrong way round. -/
def slice? (bytes : Array UInt8) (i j : Nat) : Option (Array UInt8) :=
  if i ≤ j ∧ j ≤ bytes.size then some (bytes.extract i j) else none

/-- Writes bytes **over those that stand from `i` on**, if there are as many. -/
def overwrite? (room : Array UInt8) (i : Nat) (bs : Bytes) : Option (Array UInt8) :=
  if i + bs.length ≤ room.size then
    some (room.take i ++ bs ++ room.extract (i + bs.length) room.size)
  else none

/-- A slice within its bounds is that part of the array. -/
theorem slice?_eq_some {bytes : Array UInt8} {i j : Nat} (hij : i ≤ j) (hj : j ≤ bytes.size) :
    slice? bytes i j = some (bytes.extract i j) :=
  if_pos ⟨hij, hj⟩

/-- The room behind the bytes held. -/
theorem slice?_append (held room : Array UInt8) :
    slice? (held ++ room) held.size (held ++ room).size = some room := by
  rw [slice?_eq_some (by simp) (Nat.le_refl _)]
  simp

/-- Room that is cut off leaves the bytes held. -/
theorem take_append (held room : Array UInt8) : (held ++ room).take held.size = held := by
  rw [Array.take_eq_extract, Array.extract_append_left, Array.extract_size]

/-- **Room that is written to and then cut off** behind what was written leaves the bytes held and those
that were written. -/
theorem overwrite?_append (held : Array UInt8) {room : Array UInt8} {bs : Bytes}
    (h : bs.length ≤ room.size) :
    ∃ filled, overwrite? (held ++ room) held.size bs = some filled ∧
      filled.take (held.size + bs.length) = held ++ bs := by
  have hsize : (held ++ bs).size = held.size + bs.length := by
    rw [← Array.length_toList, Array.toList_appendList, List.length_append, Array.length_toList]
  refine ⟨_, if_pos (by simpa using h), ?_⟩
  rw [take_append, ← hsize, take_append]

namespace RecordReader

/-! ## Checked steps -/

/-- A **refill in place**, with every access checked. What is pending moves to the front of the buffer and
room is made behind it; the source is given this room, and what it has not filled is cut off. -/
def fill? (r : RecordReader) : Option (Except StreamError Unit × RecordReader) := do
  let held ← slice? r.buffer r.position r.buffer.size
  let grown := held ++ Array.replicate r.refill 0
  let room ← slice? grown held.size grown.size
  match r.source.readPatiently room.size with
  | (.ok [], source) =>
    some (.ok (), { r with
      source := source, buffer := grown.take held.size, position := 0, ended := true })
  | (.ok (b :: bs), source) =>
    let filled ← overwrite? grown held.size (b :: bs)
    some (.ok (), { r with
      source := source, buffer := filled.take (held.size + (b :: bs).length), position := 0 })
  | (.error e, source) =>
    some (.error e, { r with source := source, buffer := grown.take held.size, position := 0 })

/-- **One round of the search**, with every access checked. -/
def step? (r : RecordReader) (scanned : Nat) : Option Progress := do
  let unsearched ← slice? r.buffer scanned r.buffer.size
  match unsearched.toList.idxOf? r.delimiter with
  | some offset =>
    let record ← slice? r.buffer r.position (scanned + offset)
    some (.done (.ok (some record.toList)) { r with position := scanned + offset + 1 })
  | none =>
    if r.ended then
      if r.position = r.buffer.size then some (.done (.ok none) r)
      else
        let record ← slice? r.buffer r.position r.buffer.size
        some (.done (.ok (some record.toList)) { r with position := r.buffer.size })
    else
      let pending ← Nat.psub r.buffer.size r.position
      let filled ← r.fill?
      some (.afterFill pending filled)

/-- Repeats the checked round until it is done, for **a number of rounds** at most. -/
def searchWithin : Nat → RecordReader → Nat → Option (RecordAnswer × RecordReader)
  | 0, _, _ => none
  | rounds + 1, r, scanned =>
    match r.step? scanned with
    | none => none
    | some (.done answer r') => some (answer, r')
    | some (.more r' scanned') => searchWithin rounds r' scanned'

variable {r r' : RecordReader} {i j : Nat}

/-- A compacted reader holds the bytes from the position on, wherever the position is. -/
theorem compact_eq (r : RecordReader) :
    r.compact = { r with buffer := r.buffer.extract r.position r.buffer.size, position := 0 } := by
  unfold compact
  split
  · rename_i h0
    cases r
    simp_all
  · rfl

/-- **A checked refill is a refill**, since a source fills no more than the room that it is given. -/
theorem fill?_eq_some (h : r.InRange) : r.fill? = some r.fill := by
  have hroom : (Array.replicate r.refill (0 : UInt8)).size = r.refill := Array.size_replicate
  rw [fill?, fill, compact_eq, slice?_eq_some h (Nat.le_refl _)]
  -- from here on only what is held and the room behind it matter
  generalize r.buffer.extract r.position r.buffer.size = held
  generalize Array.replicate r.refill (0 : UInt8) = room at hroom
  simp only [Option.bind_eq_bind, Option.bind_some, slice?_append, hroom, take_append]
  rcases hread : r.source.readPatiently r.refill with ⟨e | _ | ⟨b, bs⟩, source⟩
  · rfl
  · rfl
  · have hfits : (b :: bs).length ≤ room.size := hroom ▸ (ByteSource.readPatiently_ok hread).2.1
    obtain ⟨filled, hfilled, htake⟩ := overwrite?_append held hfits
    simp only [hfilled, Option.bind_some, htake, receive]

/-- **A checked round is a round**, if it starts in range. -/
theorem step?_eq_some (h : r.Scanned i) : r.step? i = some (r.step i) := by
  have hrange : r.InRange := Nat.le_trans h.start h.stop
  have hunsearched : (r.buffer.extract i r.buffer.size).toList = r.buffer.toList.drop i := by
    simp [List.take_of_length_le]
  rw [step?, step, ← map_idxOf?_drop, slice?_eq_some h.stop (Nat.le_refl _)]
  simp only [Option.bind_eq_bind, Option.bind_some, hunsearched]
  cases hoffset : (r.buffer.toList.drop i).idxOf? r.delimiter with
  | some offset =>
    have hfound : indexFrom r.buffer r.delimiter i = some (i + offset) := by
      rw [← map_idxOf?_drop, hoffset, Option.map_some]
    have hscan := h.of_indexFrom_some hfound
    simp only [slice?_eq_some hscan.start hscan.stop, Option.bind_some, Option.map_some]
  | none =>
    have hsub : Nat.psub r.buffer.size r.position = some (r.buffer.size - r.position) :=
      Nat.psub_eq_sub hrange
    simp only [slice?_eq_some hrange (Nat.le_refl _), fill?_eq_some hrange, hsub, Option.bind_some,
      Option.map_none]
    by_cases hended : r.ended = true
    · rw [if_pos hended, if_pos hended]
      -- in range, the position is at the end exactly if it is not before it
      by_cases hend : r.position = r.buffer.size
      · rw [if_pos hend, if_pos (Nat.le_of_eq hend.symm)]
      · rw [if_neg hend, if_neg (by rw [InRange] at hrange; omega)]
    · rw [if_neg hended, if_neg hended]

/-- **A checked search is a search**, if it starts in range and is given time. -/
theorem searchWithin_eq_some {rounds : Nat} (hscan : r.Scanned i) (h : r.rounds < rounds) :
    r.searchWithin rounds i = some (r.search i) := by
  fun_induction search r i generalizing rounds with
  | case1 r i answer r' hstep =>
    obtain ⟨rounds, rfl⟩ : ∃ n, rounds = n + 1 := ⟨rounds - 1, by omega⟩
    rw [searchWithin, step?_eq_some hscan, hstep]
  | case2 r i r' j hstep ih =>
    obtain ⟨rounds, rfl⟩ : ∃ n, rounds = n + 1 := ⟨rounds - 1, by omega⟩
    obtain ⟨-, -, hscan', -⟩ := scanned_of_step_more hscan hstep
    have hlt := rounds_lt_of_step hstep
    rw [searchWithin, step?_eq_some hscan, hstep]
    exact ih hscan' (by omega)

/-! ## The rounds of a call -/

/-- **Every round starts behind bytes without a delimiter**, and within the buffer: those that were pending
when the round before it asked for more. -/
theorem Scanned.after {k : Nat} (h : r.Scanned i) (hk : (Progress.more r i).after k = .more r' j) :
    r'.delimiter = r.delimiter ∧ r'.Scanned j := by
  induction k generalizing r i with
  | zero =>
    obtain ⟨rfl, rfl⟩ := Progress.more.inj hk
    exact ⟨rfl, h⟩
  | succ k ih =>
    rw [Progress.after] at hk
    rcases hstep : r.step i with ⟨answer, r₁⟩ | ⟨r₁, i₁⟩ <;> rw [hstep] at hk
    -- a call that is answered makes no more rounds
    · simp [Progress.after] at hk
    · obtain ⟨-, hsettings, hscan, -⟩ := scanned_of_step_more h hstep
      obtain ⟨hdelimiter, hscan'⟩ := ih hscan hk
      exact ⟨hdelimiter.trans hsettings.delimiter, hscan'⟩

/-- A search that goes on finds what a search **from the position** would find. -/
theorem Scanned.indexFrom_eq (h : r.Scanned i) :
    indexFrom r.buffer r.delimiter i = indexFrom r.buffer r.delimiter r.position :=
  indexFrom_eq_of_ne h.start h.clean

/-! ## Any number of calls -/

/-- The delimiter **in force** after calls to a reader that has the delimiter `d`. -/
def delimiterAfter : UInt8 → List ReaderCall → UInt8
  | d, [] => d
  | d, .next :: calls => delimiterAfter d calls
  | _, .setDelimiter d :: calls => delimiterAfter d calls

/-- **Calls keep the position within the buffer**, and no other call changes the delimiter. -/
theorem inRange_perform (h : r.InRange) (calls : List ReaderCall) :
    (r.perform calls).2.InRange ∧
      (r.perform calls).2.delimiter = delimiterAfter r.delimiter calls := by
  induction calls generalizing r with
  | nil => exact ⟨h, rfl⟩
  | cons call calls ih =>
    cases call with
    | setDelimiter d => exact @ih { r with delimiter := d } h
    | next =>
      obtain ⟨-, hsettings, hrange, -⟩ := answers_next h
      obtain ⟨hrange', hdelimiter⟩ := ih hrange
      rw [hsettings.delimiter] at hdelimiter
      exact ⟨hrange', hdelimiter⟩

/-- **Searches go on where they stopped and stay in range**, for every source, capacity and row of calls. (A
source may answer as it likes, with no more bytes than it is asked for: `ByteSource.exists_gives_iff`.) Let
`r` be the reader after the calls, the last of which may have failed.

* Its position lies within its buffer, and the delimiter that was set last is in force.
* Every round of the next call starts at an index within the buffer and not before the position, and no byte
  between them is the delimiter in force; so the round finds what a search from the position would find.
  With every access checked it comes to the same.
* With every access checked in all of its rounds, the next call has the same answer and leaves the same
  reader. -/
theorem resumes_in_range (source : ByteSource) (capacity : Nat) (d : UInt8)
    (calls : List ReaderCall) :
    let start : RecordReader := { source := source, capacity := capacity, delimiter := d }
    let r := (start.perform calls).2
    (r.position ≤ r.buffer.size ∧ r.delimiter = delimiterAfter d calls) ∧
      (∀ k r' i, (Progress.more r r.position).after k = .more r' i →
        (r'.position ≤ i ∧ i ≤ r'.buffer.size ∧
          delimiterAfter d calls ∉ (r'.buffer.extract r'.position i).toList) ∧
        r'.delimiter = delimiterAfter d calls ∧
        indexFrom r'.buffer r'.delimiter i = indexFrom r'.buffer r'.delimiter r'.position ∧
        r'.step? i = some (r'.step i)) ∧
      r.searchWithin (r.source.plan.length + r.source.data.length + 2) r.position = some r.next := by
  intro start r
  have hfresh : start.Fresh := ⟨rfl, rfl, rfl⟩
  obtain ⟨hrange, hdelimiter⟩ : r.InRange ∧ r.delimiter = delimiterAfter d calls :=
    inRange_perform hfresh.inRange calls
  have hrounds : r.rounds < r.source.plan.length + r.source.data.length + 2 := by
    rw [rounds]
    split <;> omega
  refine ⟨⟨hrange, hdelimiter⟩, ?_, searchWithin_eq_some hrange.scanned hrounds⟩
  intro k r' i hk
  obtain ⟨hsame, hscan⟩ := hrange.scanned.after hk
  have hforce : r'.delimiter = delimiterAfter d calls := hsame.trans hdelimiter
  refine ⟨⟨hscan.start, hscan.stop, ?_⟩, hforce, hscan.indexFrom_eq, step?_eq_some hscan⟩
  rw [← hforce]
  exact hscan.not_mem

/-- A failure, a record and another delimiter, and then a call that has to refill: the refill is interrupted,
moves the two bytes that are pending from index 2 to the front, and brings one byte. The search goes on at
index 2 of the buffer as it is then, where the delimiter stands. -/
theorem resumes_in_range_compacted :
    let source : ByteSource :=
      { data := [97, 59, 98, 99, 10, 100]
        plan := [.fail (.reported .timedOut "late"), .upTo 4, .fail (.reported .interrupted "again"),
          .upTo 1] }
    let start : RecordReader := { source := source, capacity := 4, delimiter := 59 }
    let r := (start.perform [.next, .next, .setDelimiter newline]).2
    r.position = 2 ∧
      ∃ r', (Progress.more r r.position).after 1 = .more r' 2 ∧
        r'.position = 0 ∧ r'.buffer = #[98, 99, 10] ∧
        indexFrom r'.buffer newline 2 = indexFrom r'.buffer newline 0 ∧
        r'.step? 2 = some (r'.step 2) := by
  intro source start r
  obtain ⟨-, hrounds, -⟩ := resumes_in_range source 4 59 [.next, .next, .setDelimiter newline]
  have hround : (match (Progress.more r r.position).after 1 with
      | .more r' i => some (r'.position, r'.buffer, i)
      | .done _ _ => none) = some (0, #[98, 99, 10], 2) := by
    decide +kernel
  refine ⟨by decide +kernel, ?_⟩
  rcases hafter : (Progress.more r r.position).after 1 with _ | ⟨r', i⟩ <;> rw [hafter] at hround
  · contradiction
  · obtain ⟨h0, hbuffer, rfl⟩ : r'.position = 0 ∧ r'.buffer = #[98, 99, 10] ∧ i = 2 := by
      simpa using hround
    obtain ⟨-, hdelimiter, hindex, hstep⟩ := hrounds 1 r' 2 hafter
    rw [hdelimiter, h0] at hindex
    exact ⟨r', rfl, h0, hbuffer, hindex, hstep⟩

end RecordReader

end RecordSort
