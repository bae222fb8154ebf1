import RecordSort.Proofs.Merge.Scanning
import RecordSort.Proofs.Record.Accounting

/-! # What a merge leaves behind

A merge into a writer asks for a record only when all before it are written. So at every moment the sink
holds what was handed out so far, and when the merge ends, be it with an error or without one, the last
answer of the merger tells what is in the sink and which error is passed on.

* **`RecordWriter.Pours`** — how writing the records of a feed may go, also of a feed without an end.
* **`Pours.exists_last`** — all records but the last answer are written, and the last answer tells the end.
* **`merge_leaves`** — the sink, the count and the feeds after a merge. -/

namespace RecordSort

namespace RecordWriter

variable {φ : Type} [RecordFeed φ] {w w' : RecordWriter} {f f' : φ}

/-! ## Runs -/

/-- **How writing the records of a feed may go.** `w.Pours f (outcome, w', f')` says that it ends with this
outcome and leaves the writer and the feed in these states. The feed need not come to an end; if it does,
`pours_pour` says how. -/
inductive Pours : RecordWriter → φ → Except StreamError Nat × RecordWriter × φ → Prop
  /-- There is no more record. -/
  | exhausted {w : RecordWriter} {f f' : φ} (answer : RecordFeed.next f = (.ok none, f')) :
      Pours w f (.ok 0, w, f')
  /-- The feed fails. -/
  | failed {w : RecordWriter} {f f' : φ} {e : StreamError}
      (answer : RecordFeed.next f = (.error e, f')) : Pours w f (.error e, w, f')
  /-- A record cannot be written. -/
  | unwritten {w w' : RecordWriter} {f f' : φ} {r : Record} {e : StreamError}
      (answer : RecordFeed.next f = (.ok (some r), f')) (write : w.write r = (.error e, w')) :
      Pours w f (.error e, w', f')
  /-- A record is written, and then those behind it. -/
  | record {w w' : RecordWriter} {f f' : φ} {r : Record}
      {out : Except StreamError Nat × RecordWriter × φ}
      (answer : RecordFeed.next f = (.ok (some r), f')) (write : w.write r = (.ok (), w'))
      (rest : Pours w' f' out) : Pours w f (out.1.map (· + 1), out.2)

/-- **Writing the records of a finite feed** goes this way. -/
theorem pours_pour [FiniteFeed φ] (w : RecordWriter) (f : φ) : w.Pours f (w.pour f) := by
  induction hw : FiniteFeed.weight f using Nat.strongRecOn generalizing w f with
  | ind n ih =>
    have hlt := FiniteFeed.weight_next_lt f
    rcases hn : RecordFeed.next f with ⟨e | _ | r, f'⟩ <;> rw [hn] at hlt
    · rw [pour_of_error hn]
      exact .failed hn
    · rw [pour_of_none hn]
      exact .exhausted hn
    · rw [pour_of_record hn]
      rcases ha : w.write r with ⟨e | _, w'⟩
      · exact .unwritten hn ha
      · exact .record hn ha (ih _ (hw ▸ hlt (by simp)) w' f' rfl)

/-- What the **last answer** tells about the end, where `w` is the writer after the `count` records that
were handed out before it. -/
def EndsWith (w : RecordWriter) (count : Nat) :
    RecordAnswer → Except StreamError Nat × RecordWriter → Prop
  | .ok none, (outcome, w') => outcome = .ok count ∧ w' = w
  | .error e, (outcome, w') => outcome = .error e ∧ w' = w
  | .ok (some r), (outcome, w') => ∃ e, outcome = .error e ∧ w.write r = (.error e, w')

/-- A record before the others adds one to their count. -/
theorem EndsWith.succ {count : Nat} {last : RecordAnswer} {outcome : Except StreamError Nat}
    (h : w.EndsWith count last (outcome, w')) :
    w.EndsWith (count + 1) last (outcome.map (· + 1), w') := by
  rcases last with e | _ | r
  · obtain ⟨rfl, rfl⟩ := h
    exact ⟨rfl, rfl⟩
  · obtain ⟨rfl, rfl⟩ := h
    exact ⟨rfl, rfl⟩
  · obtain ⟨e, rfl, hwrite⟩ := h
    exact ⟨e, rfl, hwrite⟩

/-- **All records but the last answer are written**: a last answer that is no record ends the run, and one
that is a record could not be written. Nothing is asked after it. -/
theorem Pours.exists_last {out : Except StreamError Nat × RecordWriter × φ} (h : w.Pours f out) :
    ∃ (handed : List Record) (last : RecordAnswer) (full : RecordWriter),
      RecordFeed.answers f (handed.length + 1) = handed.map (fun r => .ok (some r)) ++ [last] ∧
        out.2.2 = RecordFeed.after f (handed.length + 1) ∧
        w.writeRecords handed = (.ok (), full) ∧
        full.EndsWith handed.length last (out.1, out.2.1) := by
  induction h with
  | @exhausted w f f' answer =>
    refine ⟨[], .ok none, w, ?_, ?_, rfl, rfl, rfl⟩
    · simp [RecordFeed.answers, answer]
    · simp [RecordFeed.after, answer]
  | @failed w f f' e answer =>
    refine ⟨[], .error e, w, ?_, ?_, rfl, rfl, rfl⟩
    · simp [RecordFeed.answers, answer]
    · simp [RecordFeed.after, answer]
  | @unwritten w w' f f' r e answer write =>
    refine ⟨[], .ok (some r), w, ?_, ?_, rfl, e, rfl, write⟩
    · simp [RecordFeed.answers, answer]
    · simp [RecordFeed.after, answer]
  | @record w w' f f' r out answer write rest ih =>
    obtain ⟨handed, last, full, hanswers, hafter, hwritten, hend⟩ := ih
    refine ⟨r :: handed, last, full, ?_, ?_, ?_, hend.succ⟩
    · rw [List.length_cons, RecordFeed.answers, answer, hanswers]
      rfl
    · rw [List.length_cons, RecordFeed.after, answer]
      exact hafter
    · rw [writeRecords, write]
      exact hwritten

/-- What a write that fails leaves: a first part of the value and the delimiter behind it, never all of it,
and nothing of a value that is refused. -/
theorem exists_part_of_write {r : Record} {e : StreamError} (h : w.write r = (.error e, w')) :
    ∃ part rest, r ++ [w.delimiter] = part ++ rest ∧ rest ≠ [] ∧
      w'.sink.contents = w.sink.contents ++ part ∧
      (w.policy = .reject → w.delimiter ∈ r → part = [] ∧ e.kind = .invalidInput) := by
  obtain ⟨left, hoffered, hok⟩ := w.offeredFrom_write r
  obtain ⟨part, hwhole, hcontents⟩ := hoffered.exists_accepted
  rw [h] at hok hcontents
  refine ⟨part, left, hwhole, by simpa using hok, hcontents, ?_⟩
  intro hreject hmem
  rw [write_reject hreject hmem] at h
  obtain ⟨herror, rfl⟩ := Prod.mk.inj h
  constructor
  · exact List.self_eq_append_right.1 hcontents
  · rw [← Except.error.inj herror]
    rfl

end RecordWriter

/-! ## Merges -/

/-- After the answer that there is no more record a merger gives no other one. -/
theorem Merger.answers_of_last {φ : Type} [RecordFeed φ] {m : Merger φ} {handed : List Record}
    (h : RecordFeed.answers m (handed.length + 1) =
      handed.map (fun r => .ok (some r)) ++ [.ok none]) (k : Nat) :
    RecordFeed.answers m (handed.length + k) =
      handed.map (fun r => .ok (some r)) ++ List.replicate k (.ok none) := by
  rw [RecordFeed.answers_add] at h ⊢
  obtain ⟨hhanded, hlast⟩ := List.append_inj' h rfl
  rw [hhanded]
  cases k with
  | zero => rfl
  | succ k =>
    have hnone : (RecordFeed.after m handed.length).next.1 = .ok none := (List.cons.inj hlast).1
    have hidle : (RecordFeed.after m handed.length).next.2.Idle :=
      idle_next fun r hr => by simp [hnone] at hr
    rw [List.replicate_succ, ← hidle.answers k, ← hnone]
    rfl

/-- **What a merge leaves behind**, for every comparison, policy and sink, and whatever the feeds answer. A
merge of finite feeds ends, and so may one of others. Where it ends, the merger has handed out some records
before its last answer, its feeds have been asked for nothing beyond that, and the sink was not flushed.
The last answer tells the rest:

* if there was no more record, these are all records of the merge. They stand in the sink, each with the
  delimiter behind it, and were counted segment by segment;
* if a feed has failed, the merge ends with its error, and the records stand in the sink;
* if it was a record, the merge ends with the error of writing it. Behind the others the sink holds a first
  part of it and the delimiter, never all of it, and nothing if the record was refused. -/
theorem RecordWriter.merge_leaves {φ : Type} [RecordFeed φ] (w : RecordWriter)
    (order : Record → Record → Ordering) (feeds : List φ) :
    let merger := Merger.ofFeeds order feeds
    (∀ [FiniteFeed φ], ∃ outcome w' m, w.merge order feeds = (outcome, w', m.feeds) ∧
        w.Pours merger (outcome, w', m)) ∧
      ∀ outcome w' m, w.Pours merger (outcome, w', m) →
        ∃ (handed : List Record) (last : RecordAnswer),
          RecordFeed.answers merger (handed.length + 1) =
              handed.map (fun r => .ok (some r)) ++ [last] ∧
            m = RecordFeed.after merger (handed.length + 1) ∧
            w'.sink.flushes = w.sink.flushes ∧
            match last with
            | .ok none =>
              outcome = .ok handed.length ∧
                (∀ k, RecordFeed.answers merger (handed.length + k) =
                  handed.map (fun r => .ok (some r)) ++ List.replicate k (.ok none)) ∧
                w'.sink.contents = w.sink.contents ++ encode w.delimiter handed ∧
                w'.written = w.written + (handed.map fun r => 1 + r.count w.delimiter).sum
            | .error e =>
              outcome = .error e ∧
                w'.sink.contents = w.sink.contents ++ encode w.delimiter handed
            | .ok (some r) =>
              ∃ e part rest, outcome = .error e ∧ r ++ [w.delimiter] = part ++ rest ∧ rest ≠ [] ∧
                w'.sink.contents = w.sink.contents ++ encode w.delimiter handed ++ part ∧
                (w.policy = .reject → w.delimiter ∈ r → part = [] ∧ e.kind = .invalidInput) := by
  intro merger
  constructor
  · intro hfinite
    exact ⟨_, _, _, rfl, w.pours_pour merger⟩
  intro outcome w' m hpours
  obtain ⟨handed, last, full, hanswers, hafter, hwritten, hend⟩ := hpours.exists_last
  have hcontents := contents_of_writeRecords hwritten
  have hspends := w.spends_writeRecords handed
  have haccounts := w.accounts_writeRecords handed
  rw [hwritten] at hspends haccounts
  refine ⟨handed, last, hanswers, hafter, ?_⟩
  rcases last with e | _ | r
  · obtain ⟨houtcome, rfl⟩ := hend
    exact ⟨hspends.sink.flushes, houtcome, hcontents⟩
  · obtain ⟨houtcome, rfl⟩ := hend
    refine ⟨hspends.sink.flushes, houtcome, Merger.answers_of_last hanswers, hcontents, ?_⟩
    obtain ⟨accepted, haccepted, hcount⟩ := haccounts.counted
    obtain rfl : encode w.delimiter handed = accepted :=
      List.append_cancel_left (hcontents.symm.trans haccepted)
    rw [hcount, count_encode]
  -- the record that was handed out last is the one that could not be written
  · obtain ⟨e, houtcome, hwrite⟩ := hend
    have hlast := full.spends_write r
    rw [hwrite] at hlast
    obtain ⟨part, rest, hwhole, hrest, hpart, hreject⟩ := exists_part_of_write hwrite
    rw [hspends.delimiter] at hwhole hreject
    rw [hspends.policy] at hreject
    refine ⟨hlast.sink.flushes.trans hspends.sink.flushes, e, part, rest, houtcome, hwhole, hrest, ?_,
      hreject⟩
    rw [hpart, hcontents]

/-- Feeds that count how often they are asked, and a writer that refuses the second record: the feed of the
first one was asked for another record, and the feed of the refused one was not. -/
theorem RecordWriter.merge_leaves_refusedRecord :
    let feeds : List (Counted Replay) :=
      [{ feed := .ofRecords [[98, 10], [99]] }, { feed := .ofRecords [[97], [100]] }]
    let w : RecordWriter := { sink := { plan := [.upTo 1] }, policy := .reject }
    let merger := Merger.ofFeeds Record.byteOrder feeds
    let w' := (w.write [97]).2
    let m := merger.next.2.next.2
    w.Pours merger (.error .delimiterInRecord, w', m) ∧ m.feeds.map (·.asked) = [1, 2] ∧
      w'.sink.flushes = 0 ∧ ∃ (handed : List Record) (last : RecordAnswer),
        RecordFeed.answers merger (handed.length + 1) =
            handed.map (fun r => .ok (some r)) ++ [last] ∧
          m = RecordFeed.after merger (handed.length + 1) := by
  intro feeds w merger w' m
  have hfirst : RecordFeed.next merger = (.ok (some [97]), merger.next.2) := by
    refine Prod.ext ?_ rfl
    decide +kernel
  have hsecond : RecordFeed.next merger.next.2 = (.ok (some [98, 10]), m) := by
    refine Prod.ext ?_ rfl
    decide +kernel
  have hwrite : w.write [97] = (.ok (), w') := by
    refine Prod.ext ?_ rfl
    decide +kernel
  have hspends : w.Spends w' := w.spends_write [97]
  have hrefused : w'.write [98, 10] = (.error .delimiterInRecord, w') := by
    apply write_reject
    · exact hspends.policy
    · rw [hspends.delimiter]
      decide
  have hpours : w.Pours merger (.error .delimiterInRecord, w', m) :=
    .record hfirst hwrite (.unwritten hsecond hrefused)
  obtain ⟨-, hleaves⟩ := w.merge_leaves Record.byteOrder feeds
  obtain ⟨handed, last, hanswers, hafter, hflushes, -⟩ := hleaves _ w' m hpours
  refine ⟨hpours, ?_, hflushes, handed, last, hanswers, hafter⟩
  show merger.next.2.next.2.feeds.map (·.asked) = [1, 2]
  decide +kernel

end RecordSort
