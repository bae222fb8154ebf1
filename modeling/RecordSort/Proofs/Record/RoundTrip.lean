import RecordSort.Proofs.Record.Reading
import RecordSort.Proofs.Record.Writing

/-! # Reading and writing are inverse

What a writer has written a reader reads back, value by value and segment by segment; and the records that
a reader reads are written as they stood, with a last delimiter added where there was none. Neither depends
on how the bytes are spread over transfers.

* **`encode_flatMap_segments`**, **`decode_encode_values`** — values that hold the delimiter.
* **`reading_and_writing_inverse`** — both directions. -/

namespace RecordSort

/-- **Writing values is writing their segments.** -/
theorem encode_flatMap_segments (d : UInt8) (values : List Bytes) :
    encode d (values.flatMap (segments d)) = encode d values := by
  induction values with
  | nil => rfl
  | cons value rest ih =>
    rw [List.flatMap_cons, encode_append, encode_segments, ih, encode_cons, List.append_assoc]
    rfl

/-- What was written for values holds their segments. -/
theorem decode_encode_values (d : UInt8) (values : List Bytes) :
    decode d (encode d values) = values.flatMap (segments d) := by
  rw [← encode_flatMap_segments]
  refine decode_encode ?_
  intro r hr
  obtain ⟨value, -, hsegment⟩ := List.mem_flatMap.1 hr
  exact not_mem_of_mem_segments hsegment

/-- Values without the delimiter are their own segments. -/
theorem flatMap_segments_of_not_mem {d : UInt8} {values : List Bytes} (h : ∀ v ∈ values, d ∉ v) :
    values.flatMap (segments d) = values := by
  calc values.flatMap (segments d)
      = values.flatMap fun v => [v] := by
        rw [List.flatMap_def, List.flatMap_def]
        refine congrArg List.flatten (List.map_congr_left ?_)
        intro v hv
        exact segments_of_not_mem (h v hv)
    _ = values := List.flatMap_singleton' values

/-- **Reading and writing are inverse** up to the last delimiter, under harmless plans and for every
capacity:

* from what was written for values the segments of the values are read, and these are the values where
  none of them holds the delimiter;
* for the records that are read from `data`, `data` itself is written if it is empty or ends with the
  delimiter, and otherwise `data` and a delimiter. -/
theorem reading_and_writing_inverse (d : UInt8) :
    (∀ (values : List Bytes) (writes reads : List Transfer) (capacity : Nat),
      Harmless writes → Harmless reads →
      let writer : RecordWriter := { sink := { plan := writes }, delimiter := d, policy := .split }
      let written := writer.writeRecords values
      let reader : RecordReader :=
        { source := { data := written.2.sink.contents, plan := reads }
          capacity := capacity
          delimiter := d }
      written.1 = .ok () ∧ (drain reader).outcome = .ok () ∧
        (drain reader).records = values.flatMap (segments d) ∧
        ((∀ v ∈ values, d ∉ v) → (drain reader).records = values)) ∧
    (∀ (data : Bytes) (reads writes : List Transfer) (capacity : Nat) (policy : DelimiterPolicy),
      Harmless reads → Harmless writes →
      let reader : RecordReader :=
        { source := { data := data, plan := reads }, capacity := capacity, delimiter := d }
      let writer : RecordWriter := { sink := { plan := writes }, delimiter := d, policy := policy }
      let written := writer.writeRecords (drain reader).records
      (drain reader).outcome = .ok () ∧ written.1 = .ok () ∧
        written.2.sink.contents =
          if data = [] ∨ data.getLast? = some d then data else data ++ [d]) := by
  constructor
  · intro values writes reads capacity hwrites hreads writer written reader
    have hok : written.1 = .ok () := RecordWriter.writeRecords_of_harmless hwrites (Or.inl rfl)
    have hcontents : written.2.sink.contents = encode d values :=
      RecordWriter.contents_of_writeRecords (w := writer) (Prod.ext hok rfl)
    have hfresh : reader.Fresh := ⟨rfl, rfl, rfl⟩
    obtain ⟨hrecords, hend⟩ := hfresh.drain_of_harmless hreads
    have hsegments : (drain reader).records = values.flatMap (segments d) := by
      rw [hrecords, ← decode_encode_values, ← hcontents]
    refine ⟨hok, hend, hsegments, ?_⟩
    intro hvalues
    rw [hsegments, flatMap_segments_of_not_mem hvalues]
  · intro data reads writes capacity policy hreads hwrites reader writer written
    have hfresh : reader.Fresh := ⟨rfl, rfl, rfl⟩
    obtain ⟨hrecords, hend⟩ := hfresh.drain_of_harmless hreads
    have hclean : ∀ r ∈ (drain reader).records, d ∉ r := by
      intro r hr
      rw [hrecords] at hr
      exact not_mem_of_mem_decode hr
    have hok : written.1 = .ok () := RecordWriter.writeRecords_of_harmless hwrites (Or.inr hclean)
    have hcontents : written.2.sink.contents = encode d (drain reader).records :=
      RecordWriter.contents_of_writeRecords (w := writer) (Prod.ext hok rfl)
    refine ⟨hend, hok, ?_⟩
    rw [hcontents, hrecords]
    exact encode_decode d data

/-- A value that ends with the delimiter, an empty one and one without the delimiter come back segment by
segment; a record is written with the delimiter that it lacked. -/
theorem reading_and_writing_inverse_shortTransfers :
    let written := ({ sink := { plan := [.upTo 1] } } : RecordWriter).writeRecords
      [[97, 10], [], [98]]
    let back : RecordReader :=
      { source := { data := written.2.sink.contents
                    plan := [.upTo 2, .fail (.reported .interrupted "interrupted")] }
        capacity := 0 }
    let reader : RecordReader := { source := { data := [10, 97], plan := [.upTo 1] } }
    (drain back).records = [[97], [], [], [98]] ∧
      (({ sink := {} } : RecordWriter).writeRecords (drain reader).records).2.sink.contents =
        [10, 97, 10] := by
  intro written back reader
  obtain ⟨hvalues, hdata⟩ := reading_and_writing_inverse newline
  obtain ⟨-, -, hrecords, -⟩ := hvalues [[97, 10], [], [98]] [.upTo 1]
    [.upTo 2, .fail (.reported .interrupted "interrupted")] 0 (by decide) (by decide)
  obtain ⟨-, -, hcontents⟩ :=
    hdata [10, 97] [.upTo 1] [] defaultCapacity .split (by decide) (by decide)
  exact ⟨hrecords, hcontents⟩

end RecordSort
