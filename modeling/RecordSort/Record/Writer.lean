import RecordSort.Stream.Sink
import RecordSort.Record.Feed

/-! # Writing records to a byte sink

A **record writer** puts records into a sink, each followed by one delimiter. A value that holds the
delimiter cannot be one record; the writer's `DelimiterPolicy` says what becomes of it.

* **`RecordWriter.write`** — writes one value as one or more records. The first error ends the call;
  what was accepted before it stays in the sink, and `written` counts the records accepted whole.
* **`RecordWriter.writeRecords`** — writes a list of values.
* **`RecordWriter.pour`** — writes all records of a feed and counts them. A record is asked for only
  when all before it are written. -/

namespace RecordSort

/-- What a writer does with a value that holds the delimiter. -/
inductive DelimiterPolicy
  /-- Every segment of the value becomes a record of its own. -/
  | split
  /-- The value is refused and nothing is written. -/
  | reject
  deriving DecidableEq, Repr

/-- A writer of records and the sink it writes to. -/
structure RecordWriter where
  /-- Where the bytes go. -/
  sink : ByteSink
  /-- The byte that ends a record. -/
  delimiter : UInt8 := newline
  /-- What is done with a value that holds the delimiter. -/
  policy : DelimiterPolicy := .split
  /-- The number of records accepted whole so far. -/
  written : Nat := 0

namespace RecordWriter

/-- Writes one piece and a delimiter behind it, and counts it if the sink accepts all of it. -/
def writeSegment (w : RecordWriter) (segment : Record) : Except StreamError Unit × RecordWriter :=
  match w.sink.writeAll (segment ++ [w.delimiter]) with
  | (.ok (), sink) => (.ok (), { w with sink := sink, written := w.written + 1 })
  | (.error e, sink) => (.error e, { w with sink := sink })

/-- Writes pieces one after the other, up to the first error. -/
def writeSegments (w : RecordWriter) : List Record → Except StreamError Unit × RecordWriter
  | [] => (.ok (), w)
  | segment :: rest =>
    match w.writeSegment segment with
    | (.ok (), w') => w'.writeSegments rest
    | (.error e, w') => (.error e, w')

/-- **Writes one value**: its segments as records of their own, or nothing and an error if there are
several and the policy is to reject. -/
def write (w : RecordWriter) (value : Bytes) : Except StreamError Unit × RecordWriter :=
  if w.policy = .reject ∧ w.delimiter ∈ value then (.error .delimiterInRecord, w)
  else w.writeSegments (segments w.delimiter value)

/-- Writes values one after the other, up to the first error. -/
def writeRecords (w : RecordWriter) : List Record → Except StreamError Unit × RecordWriter
  | [] => (.ok (), w)
  | r :: rest =>
    match w.write r with
    | (.ok (), w') => w'.writeRecords rest
    | (.error e, w') => (.error e, w')

/-- Asks the sink to pass on what it has accepted. -/
def flush (w : RecordWriter) : Except StreamError Unit × RecordWriter :=
  match w.sink.flush with
  | (outcome, sink) => (outcome, { w with sink := sink })

section Pour

variable {φ : Type} [RecordFeed φ]

/-- **Writes all records of a feed** and answers how many there were. The first error, of the feed or
of the sink, ends the call. -/
def pour [FiniteFeed φ] (w : RecordWriter) (f : φ) : Except StreamError Nat × RecordWriter × φ :=
  match _h : RecordFeed.next f with
  | (.ok (some r), f') =>
    match w.write r with
    | (.ok (), w') => let (count, after) := w'.pour f'; (count.map (· + 1), after)
    | (.error e, w') => (.error e, w', f')
  | (.ok none, f') => (.ok 0, w, f')
  | (.error e, f') => (.error e, w, f')
termination_by FiniteFeed.weight f
decreasing_by
  have hlt := FiniteFeed.weight_next_lt f (by rw [_h]; simp)
  rwa [_h] at hlt

end Pour

/-- Writing no segments does nothing. -/
@[simp] theorem writeSegments_nil (w : RecordWriter) : w.writeSegments [] = (.ok (), w) := rfl

/-- Writing no records does nothing. -/
@[simp] theorem writeRecords_nil (w : RecordWriter) : w.writeRecords [] = (.ok (), w) := rfl

/-- A rejected value changes nothing. -/
theorem write_reject {w : RecordWriter} {value : Bytes} (hp : w.policy = .reject)
    (hv : w.delimiter ∈ value) : w.write value = (.error .delimiterInRecord, w) := by
  simp [write, hp, hv]

/-- Writing a segment does not change the delimiter. -/
@[simp] theorem delimiter_writeSegment (w : RecordWriter) (segment : Record) :
    (w.writeSegment segment).2.delimiter = w.delimiter := by
  unfold writeSegment; split <;> rfl

end RecordWriter

end RecordSort
