import RecordSort.Merge.MinHeap
import RecordSort.Record.Feed
import RecordSort.Record.Writer

/-! # Merging feeds of records

A **merger** hands out the records of several feeds, the least of their next records first. It holds at
most one record of each feed, its *head*, in a heap ordered by record and, among equal records, by the
number of the feed.

A feed is asked only for a record that is needed: all feeds are asked when the first record is wanted,
and from then on only the feed of the record handed out last, when the next one is wanted. The merger
is itself a feed; after the first error of a feed it has no more records.

* **`Merger.ask i`** — asks feed `i`, unless it has no record left, and puts its record among the heads.
* **`Merger.askDue`** — asks all feeds at first, and later the one whose record was handed out last.
* **`Merger.next`** — asks the feeds that are to be asked and hands out the least head. -/

namespace RecordSort

/-- **Putting back what is there** changes nothing. -/
theorem set_getElem?_self {α : Type} {xs : List α} {i : Nat} {a : α} (h : xs[i]? = some a) :
    xs.set i a = xs := by
  obtain ⟨hi, rfl⟩ := List.getElem?_eq_some_iff.1 h
  exact List.set_getElem_self hi

/-- What is put in the place of something with the same image leaves the images. -/
theorem map_set_eq_map {α β : Type} {f : α → β} {xs : List α} {i : Nat} {a a' : α}
    (h : xs[i]? = some a) (hf : f a' = f a) : (xs.set i a').map f = xs.map f := by
  have himage : (xs.map f)[i]? = some (f a) := by rw [List.getElem?_map, h]; rfl
  rw [List.map_set, hf, set_getElem?_self himage]

/-- The record that a feed gave last, while it waits to be handed out. -/
structure Head where
  /-- The record. -/
  record : Record
  /-- The number of the feed it came from. -/
  feed : Nat
  deriving DecidableEq, Repr

/-- Heads are ordered by their records, and those of equal records by their feeds. -/
def Head.order (cmp : Record → Record → Ordering) (a b : Head) : Ordering :=
  (cmp a.record b.record).then (compare a.feed b.feed)

/-- The **state of a merge** of feeds with states `φ`. -/
structure Merger (φ : Type) where
  /-- The order on the records. -/
  order : Record → Record → Ordering
  /-- The feeds. -/
  feeds : List φ
  /-- Which of the feeds have answered that they have no more records. -/
  exhausted : List Bool
  /-- The records that wait to be handed out. -/
  heads : MinHeap Head := {}
  /-- The feed of the record handed out last, until it is asked again. -/
  pending : Option Nat := none
  /-- Whether the feeds have been asked for their first records. -/
  started : Bool := false
  /-- Whether a feed has failed. -/
  failed : Bool := false

namespace Merger

variable {φ : Type}

/-- The merge of `feeds` before anything was asked for. -/
def ofFeeds (order : Record → Record → Ordering) (feeds : List φ) : Merger φ where
  order := order
  feeds := feeds
  exhausted := List.replicate feeds.length false

/-- Takes in the answer of feed `i`: a record becomes its head, and the end is noted. -/
def receive (m : Merger φ) (i : Nat) :
    RecordAnswer × φ → Except StreamError Unit × Merger φ
  | (.ok (some r), f) =>
    (.ok (), { m with feeds := m.feeds.set i f, heads := m.heads.push (Head.order m.order) ⟨r, i⟩ })
  | (.ok none, f) =>
    (.ok (), { m with feeds := m.feeds.set i f, exhausted := m.exhausted.set i true })
  | (.error e, f) => (.error e, { m with feeds := m.feeds.set i f })

/-- The least head is **handed out**, and its feed is to be asked before the next record. -/
def handOut (m : Merger φ) : RecordAnswer × Merger φ :=
  match m.heads.pop (Head.order m.order) with
  | none => (.ok none, m)
  | some (top, heads) => (.ok (some top.record), { m with heads := heads, pending := some top.feed })

/-- Without a head nothing is handed out. -/
theorem handOut_of_none {m : Merger φ} (h : m.heads.pop (Head.order m.order) = none) :
    m.handOut = (.ok none, m) := by
  rw [handOut, h]

/-- The record of the top is handed out, and its feed is due to be asked. -/
theorem handOut_of_some {m : Merger φ} {top : Head} {heads : MinHeap Head}
    (h : m.heads.pop (Head.order m.order) = some (top, heads)) :
    m.handOut = (.ok (some top.record), { m with heads := heads, pending := some top.feed }) := by
  rw [handOut, h]

variable [RecordFeed φ]

/-- **Asks feed `i`** for its next record, unless it has none left. -/
def ask (m : Merger φ) (i : Nat) : Except StreamError Unit × Merger φ :=
  if m.exhausted[i]? = some true then (.ok (), m)
  else
    match m.feeds[i]? with
    | none => (.ok (), m)
    | some f => m.receive i (RecordFeed.next f)

/-- Asks feeds one after the other, up to the first error. -/
def askAll (m : Merger φ) : List Nat → Except StreamError Unit × Merger φ
  | [] => (.ok (), m)
  | i :: rest =>
    match m.ask i with
    | (.ok (), m') => m'.askAll rest
    | (.error e, m') => (.error e, m')

/-- Asks all feeds, if this has not been done. -/
def start (m : Merger φ) : Except StreamError Unit × Merger φ :=
  if m.started then (.ok (), m)
  else { m with started := true }.askAll (List.range m.feeds.length)

/-- Asks the feed of the record handed out last, if this has not been done. -/
def askPending (m : Merger φ) : Except StreamError Unit × Merger φ :=
  match m.pending with
  | none => (.ok (), m)
  | some i => { m with pending := none }.ask i

/-- Asks the feeds that are to be asked before a record is handed out. -/
def askDue (m : Merger φ) : Except StreamError Unit × Merger φ :=
  match m.start with
  | (.ok (), m') => m'.askPending
  | (.error e, m') => (.error e, m')

/-- The **next record** of the merge, or none at the end and after an error. -/
def next (m : Merger φ) : RecordAnswer × Merger φ :=
  if m.failed then (.ok none, m)
  else
    match m.askDue with
    | (.ok (), m') => m'.handOut
    | (.error e, m') => (.error e, { m' with failed := true })

/-- A merger is a feed itself, so that mergers can be merged. -/
instance : RecordFeed (Merger φ) where
  next := next

/-! ### A merger of finite feeds is finite

Its weight is that of its feeds and the number of heads. A record that is taken from a feed lowers the
weight of the feed and becomes a head; handing it out takes it off the heads. -/

section Weight

variable [FiniteFeed φ]

/-- The sum of the weights of feeds. -/
def totalWeight : List φ → Nat
  | [] => 0
  | f :: rest => FiniteFeed.weight f + totalWeight rest

/-- Bounds the records and errors that are still to come. -/
def weight (m : Merger φ) : Nat := totalWeight m.feeds + m.heads.size

/-- Putting another feed in the place of `f` changes the sum of the weights by the difference. -/
theorem totalWeight_set {feeds : List φ} {i : Nat} {f : φ} (h : feeds[i]? = some f) (g : φ) :
    totalWeight (feeds.set i g) + FiniteFeed.weight f =
      totalWeight feeds + FiniteFeed.weight g := by
  induction feeds generalizing i with
  | nil => simp at h
  | cons f₀ rest ih =>
    cases i with
    | zero =>
      simp only [List.getElem?_cons_zero, Option.some.injEq] at h
      simp only [h, List.set_cons_zero, totalWeight]
      omega
    | succ i =>
      have := ih (by simpa using h)
      simp only [List.set_cons_succ, totalWeight]
      omega

/-- What asking feeds does to the weight: it does not rise, and an error lowers it. -/
def Lowers (m : Merger φ) (out : Except StreamError Unit × Merger φ) : Prop :=
  out.2.weight ≤ m.weight ∧ (out.1 ≠ .ok () → out.2.weight < m.weight)

/-- Asking a feed does not raise the weight, and an error lowers it. -/
theorem lowers_ask (m : Merger φ) (i : Nat) : m.Lowers (m.ask i) := by
  unfold ask
  split
  · simp [Lowers]
  split
  · simp [Lowers]
  rename_i f hf
  have hle := FiniteFeed.weight_next_le f
  have hlt := FiniteFeed.weight_next_lt f
  rcases hn : RecordFeed.next f with ⟨e | _ | r, f'⟩ <;> rw [hn] at hle hlt
  -- an error: the feed has become lighter
  · have hlt := hlt (by simp)
    have := totalWeight_set hf f'
    simp only [Lowers, receive, weight] at this hlt ⊢
    exact ⟨by omega, fun _ => by omega⟩
  -- no record: the feed has not become heavier
  · have := totalWeight_set hf f'
    simp only [Lowers, receive, weight] at this hle ⊢
    exact ⟨by omega, fun h => absurd rfl h⟩
  -- a record: the feed has become lighter and there is one more head
  · have hlt := hlt (by simp)
    have := totalWeight_set hf f'
    simp only [Lowers, receive, weight, MinHeap.size_push] at this hlt ⊢
    exact ⟨by omega, fun h => absurd rfl h⟩

/-- So it is with asking many feeds. -/
theorem lowers_askAll (m : Merger φ) (feeds : List Nat) : m.Lowers (m.askAll feeds) := by
  induction feeds generalizing m with
  | nil => simp [askAll, Lowers]
  | cons i rest ih =>
    obtain ⟨hle, hlt⟩ := m.lowers_ask i
    rcases ha : m.ask i with ⟨e | _, m'⟩ <;> rw [ha] at hle hlt
    · simp only [askAll, ha]
      exact ⟨hle, hlt⟩
    · obtain ⟨hle', hlt'⟩ := ih m'
      simp only [askAll, ha] at hle ⊢
      exact ⟨by omega, fun h => by have := hlt' h; omega⟩

/-- So it is when all feeds are asked at first. -/
theorem lowers_start (m : Merger φ) : m.Lowers m.start := by
  unfold start
  split
  · simp [Lowers]
  · exact lowers_askAll _ _

/-- So it is when the feed is asked whose record was handed out last. -/
theorem lowers_askPending (m : Merger φ) : m.Lowers m.askPending := by
  unfold askPending
  split
  · simp [Lowers]
  · exact lowers_ask _ _

/-- So it is when the feeds are asked that are due. -/
theorem lowers_askDue (m : Merger φ) : m.Lowers m.askDue := by
  unfold askDue
  obtain ⟨hle, hlt⟩ := m.lowers_start
  rcases hs : m.start with ⟨e | _, m'⟩ <;> rw [hs] at hle hlt
  · exact ⟨hle, hlt⟩
  · obtain ⟨hle', hlt'⟩ := m'.lowers_askPending
    exact ⟨Nat.le_trans hle' hle, fun h => Nat.lt_of_lt_of_le (hlt' h) hle⟩

/-- Handing out a record lowers the weight. -/
theorem weight_handOut (m : Merger φ) :
    m.handOut.2.weight ≤ m.weight ∧ (m.handOut.1 ≠ .ok none → m.handOut.2.weight < m.weight) := by
  unfold handOut
  split
  · simp
  · rename_i top heads hpop
    have := MinHeap.size_pop hpop
    simp only [weight]
    exact ⟨by omega, fun _ => by omega⟩

/-- **A call** does not raise the weight, and it lowers it unless it answers that there is no record. -/
theorem weight_next (m : Merger φ) :
    m.next.2.weight ≤ m.weight ∧ (m.next.1 ≠ .ok none → m.next.2.weight < m.weight) := by
  unfold next
  split
  · simp
  · obtain ⟨hle, hlt⟩ := m.lowers_askDue
    rcases ha : m.askDue with ⟨e | _, m'⟩ <;> rw [ha] at hle hlt
    · exact ⟨hle, fun _ => hlt (by simp)⟩
    · obtain ⟨hle', hlt'⟩ := m'.weight_handOut
      exact ⟨Nat.le_trans hle' hle, fun h => Nat.lt_of_lt_of_le (hlt' h) hle⟩

/-- A merger of finite feeds is finite. -/
instance : FiniteFeed (Merger φ) where
  weight := weight
  weight_next_le m := m.weight_next.1
  weight_next_lt m := m.weight_next.2

end Weight

end Merger

/-- **Merges feeds into a writer** and answers how many records were merged. The feeds are returned in
the state in which the merge leaves them. -/
def RecordWriter.merge {φ : Type} [RecordFeed φ] [FiniteFeed φ] (w : RecordWriter)
    (order : Record → Record → Ordering) (feeds : List φ) :
    Except StreamError Nat × RecordWriter × List φ :=
  match w.pour (Merger.ofFeeds order feeds) with
  | (outcome, w', m) => (outcome, w', m.feeds)

end RecordSort
