import RecordSort.Record.Feed

/-! # Merging by scanning all heads

The plain way to merge feeds: every feed that has not run out holds its next record ready, and the
least of these records is found by looking at all of them. This is the rule by which a merge that keeps
the records in a heap is judged.

* **`ScanMerger.ask i`** — asks feed `i`, unless it has run out, and keeps its record ready.
* **`ScanMerger.least`** — the least record held ready and its feed; of equal records the one of the
  first feed.
* **`ScanMerger.next`** — asks the feeds that are to be asked and hands out the least record. -/

namespace RecordSort

/-- A feed of a merge by scanning. -/
structure Lane (φ : Type) where
  /-- The feed. -/
  feed : φ
  /-- The record held ready. -/
  head : Option Record := none
  /-- Whether the feed has answered that it has no more records. -/
  exhausted : Bool := false

/-- The **state of a merge by scanning**. -/
structure ScanMerger (φ : Type) where
  /-- The order on the records. -/
  order : Record → Record → Ordering
  /-- The feeds with the records held ready. -/
  lanes : List (Lane φ)
  /-- Whether the feeds have been asked for their first records. -/
  started : Bool := false
  /-- The feed of the record handed out last, if one was. -/
  last : Option Nat := none
  /-- Whether a feed has failed. -/
  failed : Bool := false

namespace ScanMerger

variable {φ : Type}

/-- The merge of `feeds` before anything was asked for. -/
def ofFeeds (order : Record → Record → Ordering) (feeds : List φ) : ScanMerger φ where
  order := order
  lanes := feeds.map fun f => { feed := f }

/-- The **least record held ready** and the number of its lane, where `index` is the number of the first
lane. A later record wins only if it comes strictly before. -/
def least (order : Record → Record → Ordering) (index : Nat) :
    List (Lane φ) → Option (Record × Nat)
  | [] => none
  | lane :: rest =>
    match lane.head, least order (index + 1) rest with
    | none, best => best
    | some r, none => some (r, index)
    | some r, some (s, i) => if order s r = .lt then some (s, i) else some (r, index)

/-- Hands out the least record held ready. -/
def handOut (m : ScanMerger φ) : RecordAnswer × ScanMerger φ :=
  match least m.order 0 m.lanes with
  | none => (.ok none, { m with last := none })
  | some (r, i) =>
    (.ok (some r),
      { m with lanes := m.lanes.modify i fun lane => { lane with head := none }, last := some i })

/-- Without a least head nothing is handed out. -/
theorem handOut_of_none {m : ScanMerger φ} (h : least m.order 0 m.lanes = none) :
    m.handOut = (.ok none, { m with last := none }) := by
  rw [handOut, h]

/-- The least head is handed out, and its lane has none then. -/
theorem handOut_of_some {m : ScanMerger φ} {r : Record} {i : Nat}
    (h : least m.order 0 m.lanes = some (r, i)) :
    m.handOut = (.ok (some r),
      { m with lanes := m.lanes.modify i fun lane => { lane with head := none }, last := some i }) := by
  rw [handOut, h]

variable [RecordFeed φ]

/-- **Asks a feed** for a record to hold ready; one that has run out is not asked again. -/
def askLane (lane : Lane φ) : Except StreamError Unit × Lane φ :=
  if lane.exhausted then (.ok (), lane)
  else
    match RecordFeed.next lane.feed with
    | (.ok (some r), f) => (.ok (), { lane with feed := f, head := some r })
    | (.ok none, f) => (.ok (), { lane with feed := f, exhausted := true })
    | (.error e, f) => (.error e, { lane with feed := f })

/-- Asks all feeds in order, up to the first error. -/
def askEvery : List (Lane φ) → Except StreamError Unit × List (Lane φ)
  | [] => (.ok (), [])
  | lane :: rest =>
    match askLane lane with
    | (.ok (), lane') => let after := askEvery rest; (after.1, lane' :: after.2)
    | (.error e, lane') => (.error e, lane' :: rest)

/-- Asks the feed with the given number. -/
def askOne (lanes : List (Lane φ)) (i : Nat) : Except StreamError Unit × List (Lane φ) :=
  match lanes[i]? with
  | none => (.ok (), lanes)
  | some lane => let after := askLane lane; (after.1, lanes.set i after.2)

/-- Asks the feeds that are to be asked: all of them at first, later the one whose record was handed out
last. -/
def askDue (m : ScanMerger φ) : Except StreamError Unit × List (Lane φ) :=
  if m.started then
    match m.last with
    | none => (.ok (), m.lanes)
    | some i => askOne m.lanes i
  else askEvery m.lanes

/-- The **next record** of the merge, or none at the end and after an error. -/
def next (m : ScanMerger φ) : RecordAnswer × ScanMerger φ :=
  if m.failed then (.ok none, m)
  else
    match m.askDue with
    | (.ok (), lanes) => { m with lanes := lanes, started := true }.handOut
    | (.error e, lanes) => (.error e, { m with lanes := lanes, started := true, failed := true })

/-- A scanning merger is a feed itself. -/
instance : RecordFeed (ScanMerger φ) where
  next := next

end ScanMerger

end RecordSort
