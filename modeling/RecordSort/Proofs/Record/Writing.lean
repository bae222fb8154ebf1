import RecordSort.Chunk.Sorter
import RecordSort.Proofs.Stream.Transfers

/-! # What a writer writes

A writer that writes values adds them to its sink, each followed by the delimiter. This file says so for
one value, for a list of them, and for the records of a feed, and says when writing succeeds.

* **`RecordWriter.Spends`** — what writing does to a writer besides what it writes.
* **`contents_of_write`**, **`contents_of_writeRecords`** — what the sink holds once all was written.
* **`write_of_harmless`**, **`writeRecords_of_harmless`** — under a harmless plan all is written.
* **`pour_eq`** — writing the records of a feed is draining the feed and writing what came out of it.
* **`saveRecords_of_harmless`** — saving records to a harmless sink. -/

namespace RecordSort

namespace RecordWriter

/-- What writing does to a writer: it spends the offers of its sink and **keeps the settings**. -/
structure Spends (w w' : RecordWriter) : Prop where
  sink : w.sink.Spends w'.sink
  delimiter : w'.delimiter = w.delimiter
  policy : w'.policy = w.policy

/-- A writer that has done nothing has spent nothing. -/
theorem Spends.refl (w : RecordWriter) : w.Spends w := ⟨.refl _, rfl, rfl⟩

/-- What a writer spends adds up. -/
theorem Spends.trans {w w' w'' : RecordWriter} (h : w.Spends w') (h' : w'.Spends w'') :
    w.Spends w'' :=
  ⟨h.sink.trans h'.sink, h'.delimiter.trans h.delimiter, h'.policy.trans h.policy⟩

variable {w w' : RecordWriter}

/-! ## Segments -/

/-- Writing a segment spends offers and nothing else. -/
theorem spends_writeSegment (w : RecordWriter) (segment : Record) :
    w.Spends (w.writeSegment segment).2 := by
  have hsink := w.sink.spends_writeAll (segment ++ [w.delimiter])
  unfold writeSegment
  rcases ha : w.sink.writeAll (segment ++ [w.delimiter]) with ⟨e | _, sink⟩ <;> rw [ha] at hsink
  · exact ⟨hsink, rfl, rfl⟩
  · exact ⟨hsink, rfl, rfl⟩

/-- A segment that was written stands at the end, with its delimiter. -/
theorem contents_of_writeSegment {segment : Record} (h : w.writeSegment segment = (.ok (), w')) :
    w'.sink.contents = w.sink.contents ++ segment ++ [w.delimiter] := by
  unfold writeSegment at h
  rcases ha : w.sink.writeAll (segment ++ [w.delimiter]) with ⟨e | _, sink⟩ <;> rw [ha] at h
  · simp at h
  · obtain rfl := congrArg Prod.snd h
    rw [List.append_assoc]
    exact ByteSink.contents_of_writeAll ha

/-- A segment is written if the plan is harmless. -/
theorem writeSegment_of_harmless (h : Harmless w.sink.plan) (segment : Record) :
    (w.writeSegment segment).1 = .ok () := by
  have hok := ByteSink.writeAll_of_harmless h (segment ++ [w.delimiter])
  unfold writeSegment
  rcases ha : w.sink.writeAll (segment ++ [w.delimiter]) with ⟨e | _, sink⟩
  · rw [ha] at hok
    exact hok
  · rfl

/-- So does writing segments. -/
theorem spends_writeSegments (w : RecordWriter) (segments : List Record) :
    w.Spends (w.writeSegments segments).2 := by
  induction segments generalizing w with
  | nil => exact .refl w
  | cons segment rest ih =>
    have hfirst := w.spends_writeSegment segment
    rw [writeSegments]
    rcases ha : w.writeSegment segment with ⟨e | _, w'⟩ <;> rw [ha] at hfirst
    · exact hfirst
    · exact hfirst.trans (ih w')

/-- Segments that were written stand at the end, each with its delimiter. -/
theorem contents_of_writeSegments {segments : List Record}
    (h : w.writeSegments segments = (.ok (), w')) :
    w'.sink.contents = w.sink.contents ++ encode w.delimiter segments := by
  induction segments generalizing w with
  | nil =>
    obtain rfl := congrArg Prod.snd h
    exact (List.append_nil _).symm
  | cons segment rest ih =>
    have hspends := w.spends_writeSegment segment
    rw [writeSegments] at h
    rcases ha : w.writeSegment segment with ⟨e | _, w₁⟩ <;> rw [ha] at h hspends
    · simp at h
    · rw [ih h, contents_of_writeSegment ha, hspends.delimiter, encode_cons]
      simp

/-- **Segments are written** if the plan is harmless. -/
theorem writeSegments_of_harmless (h : Harmless w.sink.plan) (segments : List Record) :
    (w.writeSegments segments).1 = .ok () := by
  induction segments generalizing w with
  | nil => rfl
  | cons segment rest ih =>
    have hok := writeSegment_of_harmless h segment
    have hspends := w.spends_writeSegment segment
    rw [writeSegments]
    rcases ha : w.writeSegment segment with ⟨e | _, w₁⟩ <;> rw [ha] at hok hspends
    · simp at hok
    · exact ih (h.suffix hspends.sink.plan)

/-! ## Values -/

/-- Writing a value spends offers and nothing else. -/
theorem spends_write (w : RecordWriter) (value : Bytes) : w.Spends (w.write value).2 := by
  unfold write
  split
  · exact .refl w
  · exact w.spends_writeSegments _

/-- **A value that was written** stands in the sink with one delimiter behind it. -/
theorem contents_of_write {value : Bytes} (h : w.write value = (.ok (), w')) :
    w'.sink.contents = w.sink.contents ++ value ++ [w.delimiter] := by
  unfold write at h
  split at h
  · simp at h
  · rw [contents_of_writeSegments h, encode_segments, List.append_assoc]

/-- Under a harmless plan a value that is not refused is written. -/
theorem write_of_harmless (h : Harmless w.sink.plan) {value : Bytes}
    (hvalue : w.policy = .split ∨ w.delimiter ∉ value) : (w.write value).1 = .ok () := by
  unfold write
  split
  · rename_i hreject
    rcases hvalue with hsplit | hnot
    · rw [hreject.1] at hsplit
      contradiction
    · exact absurd hreject.2 hnot
  · exact writeSegments_of_harmless h _

/-- So does writing records. -/
theorem spends_writeRecords (w : RecordWriter) (rs : List Record) :
    w.Spends (w.writeRecords rs).2 := by
  induction rs generalizing w with
  | nil => exact .refl w
  | cons r rest ih =>
    have hfirst := w.spends_write r
    rw [writeRecords]
    rcases ha : w.write r with ⟨e | _, w'⟩ <;> rw [ha] at hfirst
    · exact hfirst
    · exact hfirst.trans (ih w')

/-- **Values that were written** stand in the sink, each with one delimiter behind it. -/
theorem contents_of_writeRecords {rs : List Record} (h : w.writeRecords rs = (.ok (), w')) :
    w'.sink.contents = w.sink.contents ++ encode w.delimiter rs := by
  induction rs generalizing w with
  | nil =>
    obtain rfl := congrArg Prod.snd h
    exact (List.append_nil _).symm
  | cons r rest ih =>
    have hspends := w.spends_write r
    rw [writeRecords] at h
    rcases ha : w.write r with ⟨e | _, w₁⟩ <;> rw [ha] at h hspends
    · simp at h
    · rw [ih h, contents_of_write ha, hspends.delimiter, encode_cons]
      simp

/-- Under a harmless plan values that are not refused are written. -/
theorem writeRecords_of_harmless (h : Harmless w.sink.plan) {rs : List Record}
    (hrs : w.policy = .split ∨ ∀ r ∈ rs, w.delimiter ∉ r) : (w.writeRecords rs).1 = .ok () := by
  induction rs generalizing w with
  | nil => rfl
  | cons r rest ih =>
    have hok := write_of_harmless h (hrs.imp_right fun h => h r List.mem_cons_self)
    have hspends := w.spends_write r
    rw [writeRecords]
    rcases ha : w.write r with ⟨e | _, w₁⟩ <;> rw [ha] at hok hspends
    · simp at hok
    · refine ih (h.suffix hspends.sink.plan) ?_
      rw [hspends.policy, hspends.delimiter]
      exact hrs.imp_right fun h s hs => h s (List.mem_cons_of_mem _ hs)

/-! ## The records of a feed -/

section Pour

variable {φ : Type} [RecordFeed φ] [FiniteFeed φ]

/-- A feed without a record ends the pouring. -/
theorem pour_of_none {f f' : φ} (h : RecordFeed.next f = (.ok none, f')) :
    w.pour f = (.ok 0, w, f') := by
  rw [pour]
  split <;> simp_all

/-- The error of a feed ends the pouring. -/
theorem pour_of_error {f f' : φ} {e : StreamError} (h : RecordFeed.next f = (.error e, f')) :
    w.pour f = (.error e, w, f') := by
  rw [pour]
  split <;> simp_all

/-- A record of a feed is written before the others, or its error ends the pouring. -/
theorem pour_of_record {f f' : φ} {r : Record} (h : RecordFeed.next f = (.ok (some r), f')) :
    w.pour f = match w.write r with
      | (.ok (), w') => ((w'.pour f').1.map (· + 1), (w'.pour f').2)
      | (.error e, w') => (.error e, w', f') := by
  rw [pour]
  split <;> rename_i heq <;> rw [h] at heq <;> simp only [Prod.mk.injEq, Except.ok.injEq,
    Option.some.injEq, reduceCtorEq, false_and] at heq
  obtain ⟨rfl, rfl⟩ := heq
  rfl

/-- **Writing the records of a feed** is draining the feed and writing what came out of it; the first
error, of the feed or of the sink, is the outcome. -/
theorem pour_eq (w : RecordWriter) (f : φ) :
    (w.pour f).2.1 = (w.writeRecords (drain f).records).2 ∧
      (w.pour f).1 = (w.writeRecords (drain f).records).1.bind fun _ =>
        (drain f).outcome.map fun _ => (drain f).records.length := by
  induction hw : FiniteFeed.weight f using Nat.strongRecOn generalizing w f with
  | ind n ih =>
    have hlt := FiniteFeed.weight_next_lt f
    rcases hn : RecordFeed.next f with ⟨e | _ | r, f'⟩ <;> rw [hn] at hlt
    · rw [drain_of_error hn, pour_of_error hn]
      exact ⟨rfl, rfl⟩
    · rw [drain_of_none hn, pour_of_none hn]
      exact ⟨rfl, rfl⟩
    · rw [drain_of_record hn, pour_of_record hn]
      dsimp only
      rw [writeRecords]
      rcases w.write r with ⟨e | _, w'⟩
      · exact ⟨rfl, rfl⟩
      · obtain ⟨hwriter, houtcome⟩ := ih _ (hw ▸ hlt (by simp)) w' f' rfl
        refine ⟨hwriter, ?_⟩
        dsimp only
        rw [houtcome]
        rcases (w'.writeRecords (drain f').records).1 with e | _
        · rfl
        · rcases (drain f').outcome with e | _ <;> rfl

end Pour

end RecordWriter

/-! ## Flushing and saving -/

/-- A flush that no entry of the plan makes fail. -/
theorem ByteSink.flush_of_harmless {s : ByteSink} (h : ∀ e, Transfer.fail e ∉ s.flushPlan) :
    s.flush.1 = .ok () := by
  rcases hp : s.flushPlan with _ | ⟨count | e, plan⟩
  · simp [flush, hp]
  · simp [flush, hp]
  · exact absurd (hp ▸ List.mem_cons_self) (h e)

/-- **Records that were saved** stand in the sink. -/
theorem contents_of_saveRecords {d : UInt8} {rs : List Record} {sink sink' : ByteSink}
    (h : saveRecords d rs sink = (.ok (), sink')) :
    sink'.contents = sink.contents ++ encode d rs := by
  unfold saveRecords at h
  rcases ha : ({ sink := sink, delimiter := d } : RecordWriter).writeRecords rs with ⟨e | _, w⟩ <;>
    rw [ha] at h
  · simp at h
  · obtain rfl : w.sink.flush.2 = sink' := congrArg Prod.snd h
    rw [ByteSink.contents_flush]
    exact RecordWriter.contents_of_writeRecords ha

/-- Under harmless plans records are saved. -/
theorem saveRecords_of_harmless {d : UInt8} {rs : List Record} {sink : ByteSink}
    (h : Harmless sink.plan) (hflush : ∀ e, Transfer.fail e ∉ sink.flushPlan) :
    (saveRecords d rs sink).1 = .ok () := by
  have hok : (({ sink := sink, delimiter := d } : RecordWriter).writeRecords rs).1 = .ok () :=
    RecordWriter.writeRecords_of_harmless h (Or.inl rfl)
  have hspends := RecordWriter.spends_writeRecords { sink := sink, delimiter := d } rs
  unfold saveRecords
  rcases ha : ({ sink := sink, delimiter := d } : RecordWriter).writeRecords rs with ⟨e | _, w⟩ <;>
    rw [ha] at hok hspends
  · simp at hok
  · refine ByteSink.flush_of_harmless ?_
    rw [hspends.sink.flushPlan]
    exact hflush

end RecordSort
