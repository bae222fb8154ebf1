import RecordSort.Proofs.Chunk.MemoryFrames
import RecordSort.Proofs.Record.PlainDecoder

/-! # Chunks that are loaded to their end

A reader of a chunk may be told that it has no more bytes before they have all been handed out; it then
takes what it has for the whole content. This file is about loads to which that does not happen.

* **`RecordReader.Fresh.data_eq_of_drain`** — what a whole reading leaves in the source.
* **`ChunkSorter.LoadsWhole`** — all bytes are handed out, unless the load fails.
* **`records_of_loadsWhole`** — such a load gives the records of the content.
* **`loadsWhole_of_not_mem`** — a plan by which all loads are such. -/

namespace RecordSort

/-- **A whole reading that ends well** leaves in the source what does not belong to its stream. -/
theorem RecordReader.Fresh.data_eq_of_drain {r : RecordReader} (h : r.Fresh)
    (hok : (drain r).outcome = .ok ()) :
    r.source.data = r.source.stream r.refill ++ (drain r).feed.source.data := by
  obtain ⟨given, hasks, hend⟩ := r.asks_drain
  have hahead : r.source.stream r.refill = handedOut given := by
    have hahead := hasks.ahead
    rw [ahead, h.ended, if_neg (by simp), ahead, hend hok, if_pos rfl, List.append_nil] at hahead
    exact hahead
  rw [hahead]
  exact hasks.source.data_eq

namespace ChunkSorter

/-- **The chunk is loaded to its end**: unless it cannot be opened or read, its reader is told that there
are no more bytes only after all have been handed out. -/
def LoadsWhole (s : ChunkSorter) (m : Memory) (i : Nat) : Prop :=
  ∀ source m', m.openRead i = (.ok source, m') → (drain (s.reader source)).outcome = .ok () →
    (drain (s.reader source)).feed.source.data = []

variable {s : ChunkSorter} {m : Memory} {i : Nat} {c : MemoryChunk} {plan : List Transfer}

/-- A chunk that is loaded to its end gives **the records of its content**. -/
theorem records_of_loadsWhole (h : s.LoadsWhole m i) (hc : m.chunks[i]? = some c)
    (hopening : c.nextOpening = .serve plan)
    (hok : (drain (s.reader { data := m.content i, plan := plan })).outcome = .ok ()) :
    (drain (s.reader { data := m.content i, plan := plan })).records =
      decode s.delimiter (m.content i) := by
  have hopen := Memory.openRead_eq hc
  rw [hopening] at hopen
  obtain ⟨r, hr⟩ : ∃ r, r = s.reader { data := m.content i, plan := plan } := ⟨_, rfl⟩
  have hfresh : r.Fresh := hr ▸ s.fresh_reader _
  have hrest := h _ _ hopen hok
  rw [← hr] at hok hrest ⊢
  have hdata := hfresh.data_eq_of_drain hok
  rw [hrest, List.append_nil] at hdata
  rw [(RecordReader.drain_eq_decode hfresh.inRange).1 hok, hfresh.remaining_eq_stream, ← hdata, hr]
  rfl

/-- If no transfer of the plan is empty the chunk is loaded to its end. -/
theorem loadsWhole_of_not_mem (hc : m.chunks[i]? = some c)
    (h : ∀ plan, c.nextOpening = .serve plan → Transfer.upTo 0 ∉ plan) : s.LoadsWhole m i := by
  intro source m' hopen hok
  rw [Memory.openRead_eq hc] at hopen
  cases hopening : c.nextOpening with
  | refuse e =>
    rw [hopening] at hopen
    simp at hopen
  | serve plan =>
    rw [hopening] at hopen
    obtain ⟨rfl⟩ := Except.ok.inj (Prod.mk.inj hopen).1
    obtain ⟨r, hr⟩ : ∃ r, r = s.reader { data := m.content i, plan := plan } := ⟨_, rfl⟩
    have hfresh : r.Fresh := hr ▸ s.fresh_reader _
    have hplan : Transfer.upTo 0 ∉ r.source.plan := hr ▸ h plan hopening
    rw [← hr] at hok ⊢
    -- the stream is the whole data, so that nothing is left
    have hdata := hfresh.data_eq_of_drain hok
    rw [← hfresh.remaining_eq_stream, hfresh.remaining_eq_data hplan] at hdata
    exact List.append_right_eq_self.1 hdata.symm

end ChunkSorter

end RecordSort
