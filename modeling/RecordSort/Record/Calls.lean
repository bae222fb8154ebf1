import RecordSort.Record.Feed
import RecordSort.Record.Writer

/-! # Calls to readers and writers, and the plain decoder

A reader is asked for records, and its delimiter may be changed between two questions. The plain decoder
is what such a reader is to be compared with. It has all bytes before it as a whole and takes records off
their front; it knows nothing of sources, transfers and buffers. A writer is given values and flushed, and
its policy may be changed between two calls.

* **`ReaderCall`**, **`RecordReader.perform`** — calls that are made to a reader one after the other.
* **`PlainRun`** — how a plain decoder may answer calls.
* **`WriterCall`**, **`RecordWriter.afterCalls`** — calls that are made to a writer one after the other. -/

namespace RecordSort

/-- What can be asked of a reader. -/
inductive ReaderCall
  /-- The next record. -/
  | next
  /-- Another delimiter from now on. -/
  | setDelimiter (d : UInt8)
  deriving DecidableEq, Repr

/-- **Makes calls** one after the other. The answers are those to the questions for a record. -/
def RecordReader.perform (r : RecordReader) : List ReaderCall → List RecordAnswer × RecordReader
  | [] => ([], r)
  | .setDelimiter d :: calls => { r with delimiter := d }.perform calls
  | .next :: calls =>
    let after := r.next.2.perform calls
    (r.next.1 :: after.1, after.2)

/-- **A run of the plain decoder.** `PlainRun d rest calls answers left` says that a decoder with the
delimiter `d` and the bytes `rest` before it may give these answers to these calls, and that `left` is
what it has before it then. -/
inductive PlainRun : UInt8 → Bytes → List ReaderCall → List RecordAnswer → Bytes → Prop
  /-- No call is left to be made. -/
  | done (d : UInt8) (rest : Bytes) : PlainRun d rest [] [] rest
  /-- The delimiter is changed. -/
  | setDelimiter {d d' : UInt8} {rest left : Bytes} {calls : List ReaderCall}
      {answers : List RecordAnswer} (after : PlainRun d' rest calls answers left) :
      PlainRun d rest (.setDelimiter d' :: calls) answers left
  /-- No byte is left, and so no record. -/
  | exhausted {d : UInt8} {left : Bytes} {calls : List ReaderCall} {answers : List RecordAnswer}
      (after : PlainRun d [] calls answers left) :
      PlainRun d [] (.next :: calls) (.ok none :: answers) left
  /-- The first record is taken off, and with it the delimiter behind it. -/
  | record {d : UInt8} {rest rest' left : Bytes} {p : Record} {calls : List ReaderCall}
      {answers : List RecordAnswer} (first : takeRecord d rest = some (p, rest'))
      (after : PlainRun d rest' calls answers left) :
      PlainRun d rest (.next :: calls) (.ok (some p) :: answers) left
  /-- The call fails and takes nothing. -/
  | failed {d : UInt8} {rest left : Bytes} {e : StreamError} {calls : List ReaderCall}
      {answers : List RecordAnswer} (after : PlainRun d rest calls answers left) :
      PlainRun d rest (.next :: calls) (.error e :: answers) left

/-- What can be asked of a writer. -/
inductive WriterCall
  /-- A value is written. -/
  | write (value : Bytes)
  /-- The sink is asked to pass on what it has accepted. -/
  | flush
  /-- Another policy from now on. -/
  | setPolicy (policy : DelimiterPolicy)
  deriving DecidableEq, Repr

/-- The writer **after calls** that are made one after the other, whether they fail or not. -/
def RecordWriter.afterCalls (w : RecordWriter) : List WriterCall → RecordWriter
  | [] => w
  | .write value :: calls => (w.write value).2.afterCalls calls
  | .flush :: calls => w.flush.2.afterCalls calls
  | .setPolicy policy :: calls => { w with policy := policy }.afterCalls calls

end RecordSort
