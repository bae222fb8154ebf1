import Mathlib.Data.List.Forall2
import RecordSort.Proofs.Merge.SortedMerge
import RecordSort.Proofs.Record.ErrorsAhead
import RecordSort.Proofs.Record.Unread

/-! # A merge that is broken off

A read of any source and a write to the sink may fail at any time, and then the merge ends. Until then it
goes on as if nothing could fail: side by side with it runs a merge of the same records laid down in
advance, and both give the same answers up to the first error.

* **`Meets`** — among some parties one error has been met, and no other.
* **`Advances`** — a relation between feeds and what they become; a merge carries it along.
* **`RecordReader.Supplies`** — the records that a reader has before it.
* **`Merger.twin`** — the merge of records laid down in advance; `twin_next` says that the answers agree.
* **`RecordWriter.pour_twin`** — what is written up to the first error, and **`meets_pour`**, which error
  that is. -/

namespace RecordSort

/-! ## Errors among parties -/

/-- Each of some parties is told by the errors that are ahead of it. Between two states of them **the error
`met` has been met**, as the first one ahead of one party, and no other error has been. -/
def Meets (met : Option StreamError) (before after : List (List StreamError)) : Prop :=
  match met with
  | none => after = before
  | some e => ∃ k rest, before[k]? = some (e :: rest) ∧ after = before.set k rest

section Meets

variable {met : Option StreamError} {before after later : List (List StreamError)}

/-- A single party. -/
theorem Meets.of_eq_append {ahead ahead' : List StreamError} (h : ahead = met.toList ++ ahead') :
    Meets met [ahead] [ahead'] := by
  subst h
  cases met with
  | none => rfl
  | some e => exact ⟨0, ahead', rfl, rfl⟩

/-- Parties behind them meet nothing. -/
theorem Meets.append_right (h : Meets met before after) (others : List (List StreamError)) :
    Meets met (before ++ others) (after ++ others) := by
  cases met with
  | none => exact congrArg (· ++ others) h
  | some e =>
    obtain ⟨k, rest, hk, rfl⟩ := h
    have hlt := (List.getElem?_eq_some_iff.1 hk).1
    exact ⟨k, rest, by rw [List.getElem?_append_left hlt, hk], by rw [List.set_append_left _ _ hlt]⟩

/-- Parties before them meet nothing. -/
theorem Meets.append_left (h : Meets met before after) (others : List (List StreamError)) :
    Meets met (others ++ before) (others ++ after) := by
  cases met with
  | none => exact congrArg (others ++ ·) h
  | some e =>
    obtain ⟨k, rest, hk, rfl⟩ := h
    refine ⟨others.length + k, rest, ?_, ?_⟩
    · rw [List.getElem?_append_right (Nat.le_add_right _ _), Nat.add_sub_cancel_left, hk]
    · rw [List.set_append_right _ _ (Nat.le_add_right _ _), Nat.add_sub_cancel_left]

/-- Before the error no other one has been met. -/
theorem Meets.trans (h : Meets none before after) (h' : Meets met after later) :
    Meets met before later := by
  obtain rfl : after = before := h
  exact h'

end Meets

/-! ## What becomes of feeds -/

/-- Handing out a record asks no feed. -/
theorem Merger.feeds_handOut {φ : Type} (m : Merger φ) : m.handOut.2.feeds = m.feeds := by
  unfold handOut
  split <;> rfl

/-- A relation that holds between every feed and **what becomes of it** when it is asked. -/
structure Advances {φ : Type} [RecordFeed φ] (R : φ → φ → Prop) : Prop where
  refl : ∀ f, R f f
  trans : ∀ f g h, R f g → R g h → R f h
  next : ∀ f, R f (RecordFeed.next f).2

namespace Advances

variable {φ : Type} [RecordFeed φ] {R : φ → φ → Prop}

/-- Feeds that are not asked stand in the relation. -/
theorem forall₂_refl (h : Advances R) (feeds : List φ) : List.Forall₂ R feeds feeds :=
  List.forall₂_same.2 fun f _ => h.refl f

/-- The relation between feeds is passed on. -/
theorem forall₂_trans (h : Advances R) {fs gs hs : List φ} (h₁ : List.Forall₂ R fs gs)
    (h₂ : List.Forall₂ R gs hs) : List.Forall₂ R fs hs := by
  induction h₁ generalizing hs with
  | nil => exact h₂
  | cons hfg _ ih =>
    cases h₂ with
    | cons hgh hrest => exact .cons (h.trans _ _ _ hfg hgh) (ih hrest)

/-- One feed has become another, and the others are as they were. -/
theorem forall₂_set (h : Advances R) {feeds : List φ} {i : Nat} {f f' : φ}
    (hi : feeds[i]? = some f) (hf : R f f') : List.Forall₂ R feeds (feeds.set i f') := by
  induction feeds generalizing i with
  | nil => exact .nil
  | cons g rest ih =>
    cases i with
    | zero =>
      obtain rfl : g = f := Option.some.inj hi
      exact .cons hf (h.forall₂_refl rest)
    | succ i => exact .cons (h.refl g) (ih hi)

variable (m : Merger φ)

/-- Asking a feed leaves feeds in the relation to what they were. -/
theorem ask (h : Advances R) (i : Nat) : List.Forall₂ R m.feeds (m.ask i).2.feeds := by
  unfold Merger.ask
  split
  · exact h.forall₂_refl _
  split
  · exact h.forall₂_refl _
  rename_i f hf
  have hnext := h.next f
  rcases hn : RecordFeed.next f with ⟨e | _ | r, f'⟩ <;> rw [hn] at hnext
  · exact h.forall₂_set hf hnext
  · exact h.forall₂_set hf hnext
  · exact h.forall₂_set hf hnext

/-- So does asking many feeds. -/
theorem askAll (h : Advances R) (feeds : List Nat) :
    List.Forall₂ R m.feeds (m.askAll feeds).2.feeds := by
  induction feeds generalizing m with
  | nil => exact h.forall₂_refl _
  | cons i rest ih =>
    have hfirst := h.ask m i
    rw [Merger.askAll]
    rcases ha : m.ask i with ⟨e | _, m'⟩ <;> rw [ha] at hfirst
    · exact hfirst
    · exact h.forall₂_trans hfirst (ih m')

/-- So does asking all feeds at first. -/
theorem start (h : Advances R) : List.Forall₂ R m.feeds m.start.2.feeds := by
  unfold Merger.start
  split
  · exact h.forall₂_refl _
  · exact h.askAll { m with started := true } _

/-- So does asking the feed whose record was handed out last. -/
theorem askPending (h : Advances R) : List.Forall₂ R m.feeds m.askPending.2.feeds := by
  unfold Merger.askPending
  split
  · exact h.forall₂_refl _
  · exact h.ask { m with pending := none } _

/-- So does asking the feeds that are due. -/
theorem askDue (h : Advances R) : List.Forall₂ R m.feeds m.askDue.2.feeds := by
  have hstart := h.start m
  unfold Merger.askDue
  rcases hs : m.start with ⟨e | _, m'⟩ <;> rw [hs] at hstart
  · exact hstart
  · exact h.forall₂_trans hstart (h.askPending m')

/-- **Every call of a merger** leaves its feeds in the relation to what they were. -/
theorem nextOfMerger (h : Advances R) : List.Forall₂ R m.feeds m.next.2.feeds := by
  have hdue := h.askDue m
  unfold Merger.next
  split
  · exact h.forall₂_refl _
  rcases ha : m.askDue with ⟨e | _, m'⟩ <;> rw [ha] at hdue
  · exact hdue
  · dsimp only
    rw [Merger.feeds_handOut]
    exact hdue

/-- **A merge into a writer** carries the relation along. -/
theorem pour [FiniteFeed φ] (h : Advances R) (w : RecordWriter) :
    List.Forall₂ R m.feeds (w.pour m).2.2.feeds := by
  induction hw : FiniteFeed.weight m using Nat.strongRecOn generalizing w m with
  | ind n ih =>
    have hnext := h.nextOfMerger m
    have hlt := FiniteFeed.weight_next_lt m
    rcases hn : RecordFeed.next m with ⟨e | _ | r, m'⟩ <;> rw [hn] at hlt <;>
      rw [show m.next = _ from hn] at hnext
    · rw [RecordWriter.pour_of_error hn]
      exact hnext
    · rw [RecordWriter.pour_of_none hn]
      exact hnext
    · rw [RecordWriter.pour_of_record hn]
      rcases w.write r with ⟨e | _, w'⟩
      · exact hnext
      · exact h.forall₂_trans hnext (ih _ (hw ▸ hlt (by simp)) m' w' rfl)

end Advances

/-! ## Readers -/

namespace RecordReader

/-- The reader **has the records `rs` before it**: they are those of the bytes that it has not handed on. -/
structure Supplies (r : RecordReader) (rs : List Record) : Prop where
  inRange : r.InRange
  records : decode r.delimiter r.unread = rs

/-- What an answer has to do with the records before the reader. -/
def Hands (rs : List Record) : RecordAnswer × RecordReader → Prop
  | (.ok none, r') => rs = [] ∧ r'.Supplies []
  | (.ok (some p), r') => ∃ rest, rs = p :: rest ∧ r'.Supplies rest
  | (.error _, r') => r'.Supplies rs

variable {r : RecordReader} {rs : List Record}

/-- **A call hands out the first of the records**, if the reader is not cut short. -/
theorem Supplies.next (h : r.Supplies rs) (huncut : r.next.2.Uncut) : Hands rs r.next := by
  obtain ⟨-, hsettings, hrange, -⟩ := answers_next h.inRange
  have htakes := takes_next h.inRange huncut
  have hrecords := h.records
  rcases hn : r.next with ⟨e | _ | p, r'⟩ <;> rw [hn] at hsettings hrange htakes
  · refine ⟨hrange, ?_⟩
    rw [hsettings.delimiter, show r'.unread = r.unread from htakes]
    exact hrecords
  · rw [htakes.1, decode_nil] at hrecords
    refine ⟨hrecords.symm, hrange, ?_⟩
    rw [htakes.2, decode_nil]
  · rw [decode_eq_takeRecord, show takeRecord r.delimiter r.unread = _ from htakes] at hrecords
    refine ⟨_, hrecords.symm, hrange, ?_⟩
    rw [hsettings.delimiter]

/-- Being cut short is carried along. -/
theorem advances_uncut : Advances fun r r' : RecordReader => r'.Uncut → r.Uncut where
  refl _ := id
  trans _ _ _ h h' := fun huncut => h (h' huncut)
  next _ := uncut_of_next

/-- What a source answers is carried along. -/
theorem advances_asks : Advances fun r r' : RecordReader => ∃ given, r.Asks r' given where
  refl r := ⟨[], r.asks_setPosition r.position⟩
  trans _ _ _ := by
    rintro ⟨given, h⟩ ⟨given', h'⟩
    exact ⟨given ++ given', h.trans h'⟩
  next r := by
    obtain ⟨given, hasks, -⟩ := r.asks_next
    exact ⟨given, hasks⟩

end RecordReader

/-- What is related to a list elementwise has each of its elements related to one of the list. -/
theorem exists_mem_of_forall₂ {α β : Type} {R : α → β → Prop} {as : List α} {bs : List β}
    (h : List.Forall₂ R as bs) {b : β} (hb : b ∈ bs) : ∃ a ∈ as, R a b := by
  induction h with
  | nil => exact absurd hb List.not_mem_nil
  | @cons a₀ b₀ as bs hfirst _ ih =>
    rcases List.mem_cons.1 hb with rfl | hrest
    · exact ⟨a₀, List.mem_cons_self, hfirst⟩
    · obtain ⟨a, ha, hab⟩ := ih hrest
      exact ⟨a, List.mem_cons_of_mem _ ha, hab⟩

/-- Where no reader is cut short in the end, none has been before. -/
theorem forall_uncut_of_forall₂ {readers readers' : List RecordReader}
    (h : List.Forall₂ (fun r r' : RecordReader => r'.Uncut → r.Uncut) readers readers')
    (huncut : ∀ r ∈ readers', r.Uncut) : ∀ r ∈ readers, r.Uncut := by
  intro r hr
  obtain ⟨r', hr', hback⟩ := exists_mem_of_forall₂ h.flip hr
  exact hback (huncut r' hr')

/-! ## A merge and its twin -/

namespace Merger

/-- The **same merge of records laid down in advance**. -/
def twin (m : Merger RecordReader) (lists : List (List Record)) : Merger Replay where
  order := m.order
  feeds := lists.map Replay.ofRecords
  exhausted := m.exhausted
  heads := m.heads
  pending := m.pending
  started := m.started
  failed := m.failed

/-- The readers of a merge have these records before them. -/
def Supplied (m : Merger RecordReader) (lists : List (List Record)) : Prop :=
  List.Forall₂ RecordReader.Supplies m.feeds lists

variable {m : Merger RecordReader} {lists : List (List Record)}

/-- The records before one of the readers. -/
theorem Supplied.getElem? (h : m.Supplied lists) {i : Nat} {r : RecordReader}
    (hi : m.feeds[i]? = some r) : ∃ rs, lists[i]? = some rs ∧ r.Supplies rs := by
  obtain ⟨hlt, rfl⟩ := List.getElem?_eq_some_iff.1 hi
  have hlt' : i < lists.length := List.Forall₂.length_eq h ▸ hlt
  exact ⟨lists[i], List.getElem?_eq_getElem hlt', List.Forall₂.get h hlt hlt'⟩

/-- One of the readers becomes another one, and so do the records before it. -/
theorem forall₂_set_set {readers : List RecordReader}
    (h : List.Forall₂ RecordReader.Supplies readers lists) (i : Nat) {r : RecordReader}
    {rs : List Record} (hr : r.Supplies rs) :
    List.Forall₂ RecordReader.Supplies (readers.set i r) (lists.set i rs) := by
  induction h generalizing i with
  | nil => exact .nil
  | cons hfirst hrest ih =>
    cases i with
    | zero => exact .cons hr hrest
    | succ i => exact .cons hfirst (ih i)

/-- **Asking one feed**: the twin is answered alike. -/
theorem twin_ask (h : m.Supplied lists) (i : Nat) (huncut : ∀ r ∈ (m.ask i).2.feeds, r.Uncut)
    (hok : (m.ask i).1 = .ok ()) :
    ∃ lists', (m.ask i).2.Supplied lists' ∧
      (m.twin lists).ask i = (.ok (), (m.ask i).2.twin lists') := by
  unfold ask at huncut hok ⊢
  by_cases hexhausted : m.exhausted[i]? = some true
  · rw [if_pos hexhausted, if_pos (show (m.twin lists).exhausted[i]? = _ from hexhausted)]
    exact ⟨lists, h, rfl⟩
  rw [if_neg hexhausted] at huncut hok ⊢
  rw [if_neg (show ¬ (m.twin lists).exhausted[i]? = _ from hexhausted)]
  have htwin : (m.twin lists).feeds[i]? = lists[i]?.map Replay.ofRecords := List.getElem?_map ..
  cases hi : m.feeds[i]? with
  | none =>
    have hnone : lists[i]? = none := by
      rw [List.getElem?_eq_none_iff] at hi ⊢
      exact List.Forall₂.length_eq h ▸ hi
    rw [htwin, hnone]
    exact ⟨lists, h, rfl⟩
  | some r =>
    obtain ⟨rs, hrs, hsupplies⟩ := h.getElem? hi
    have hlt : i < m.feeds.length := (List.getElem?_eq_some_iff.1 hi).1
    rw [hi] at huncut hok
    rw [htwin, hrs]
    dsimp only [Option.map_some] at huncut hok ⊢
    have hhands : r.next.2.Uncut → RecordReader.Hands rs r.next := hsupplies.next
    rcases hn : RecordFeed.next r with ⟨e | _ | p, r'⟩ <;> rw [hn] at huncut hok <;>
      rw [show r.next = _ from hn] at hhands
    · contradiction
    -- the reader has no more records
    · obtain ⟨rfl, hafter⟩ := hhands (huncut r' (List.mem_set hlt r'))
      refine ⟨lists.set i [], forall₂_set_set h i hafter, ?_⟩
      simp only [receive, twin, List.map_set]
      rfl
    -- the first of the records before the reader becomes its head
    · obtain ⟨rest, rfl, hafter⟩ := hhands (huncut r' (List.mem_set hlt r'))
      refine ⟨lists.set i rest, forall₂_set_set h i hafter, ?_⟩
      simp only [receive, twin, List.map_set]
      rfl

/-- Feeds that are asked without an error answer as their lists of records do. -/
theorem twin_askAll (h : m.Supplied lists) (feeds : List Nat)
    (huncut : ∀ r ∈ (m.askAll feeds).2.feeds, r.Uncut) (hok : (m.askAll feeds).1 = .ok ()) :
    ∃ lists', (m.askAll feeds).2.Supplied lists' ∧
      (m.twin lists).askAll feeds = (.ok (), (m.askAll feeds).2.twin lists') := by
  induction feeds generalizing m lists with
  | nil => exact ⟨lists, h, rfl⟩
  | cons i rest ih =>
    rw [askAll] at huncut hok ⊢
    rcases ha : m.ask i with ⟨e | _, m'⟩ <;> rw [ha] at huncut hok
    · contradiction
    · have hbefore : ∀ r ∈ (m.ask i).2.feeds, r.Uncut :=
        ha ▸ forall_uncut_of_forall₂ (RecordReader.advances_uncut.askAll m' rest) huncut
      obtain ⟨lists', hsupplied, htwin⟩ := twin_ask h i hbefore (congrArg Prod.fst ha)
      rw [ha] at hsupplied htwin
      rw [askAll, htwin]
      exact ih hsupplied huncut hok

/-- So they do in the first call. -/
theorem twin_start (h : m.Supplied lists) (huncut : ∀ r ∈ m.start.2.feeds, r.Uncut)
    (hok : m.start.1 = .ok ()) :
    ∃ lists', m.start.2.Supplied lists' ∧
      (m.twin lists).start = (.ok (), m.start.2.twin lists') := by
  have hlength : (m.twin lists).feeds.length = m.feeds.length := by
    rw [twin, List.length_map, List.Forall₂.length_eq h]
  unfold start at huncut hok ⊢
  by_cases hstarted : m.started = true
  · rw [if_pos hstarted, if_pos (show (m.twin lists).started = true from hstarted)]
    exact ⟨lists, h, rfl⟩
  · rw [if_neg hstarted] at huncut hok ⊢
    rw [if_neg (show ¬ (m.twin lists).started = true from hstarted), hlength]
    exact twin_askAll (m := { m with started := true }) h _ huncut hok

/-- So they do when the feed whose record was handed out last is asked. -/
theorem twin_askPending (h : m.Supplied lists) (huncut : ∀ r ∈ m.askPending.2.feeds, r.Uncut)
    (hok : m.askPending.1 = .ok ()) :
    ∃ lists', m.askPending.2.Supplied lists' ∧
      (m.twin lists).askPending = (.ok (), m.askPending.2.twin lists') := by
  have hpending : (m.twin lists).pending = m.pending := rfl
  unfold askPending at huncut hok ⊢
  rw [hpending]
  cases hp : m.pending with
  | none => exact ⟨lists, h, by simp only [twin, hp]⟩
  | some i =>
    rw [hp] at huncut hok
    exact twin_ask (m := { m with pending := none }) h i huncut hok

/-- **Asking the feeds that are to be asked**: the twin is answered alike. -/
theorem twin_askDue (h : m.Supplied lists) (huncut : ∀ r ∈ m.askDue.2.feeds, r.Uncut)
    (hok : m.askDue.1 = .ok ()) :
    ∃ lists', m.askDue.2.Supplied lists' ∧
      (m.twin lists).askDue = (.ok (), m.askDue.2.twin lists') := by
  unfold askDue at huncut hok ⊢
  rcases hs : m.start with ⟨e | _, m'⟩ <;> rw [hs] at huncut hok
  · contradiction
  · have hafter : ∀ r ∈ m.start.2.feeds, r.Uncut :=
      hs ▸ forall_uncut_of_forall₂ (RecordReader.advances_uncut.askPending m') huncut
    obtain ⟨lists', hsupplied, htwin⟩ := twin_start h hafter (congrArg Prod.fst hs)
    rw [hs] at hsupplied htwin
    rw [htwin]
    exact twin_askPending hsupplied huncut hok

/-- **Up to the first error a merge answers like its twin**, if no reader is cut short. -/
theorem twin_next (h : m.Supplied lists) (huncut : ∀ r ∈ m.next.2.feeds, r.Uncut)
    (hok : ∀ e, m.next.1 ≠ .error e) :
    ∃ lists', m.next.2.Supplied lists' ∧
      (m.twin lists).next = (m.next.1, m.next.2.twin lists') := by
  unfold next at huncut hok ⊢
  by_cases hfailed : m.failed = true
  · rw [if_pos hfailed, if_pos (show (m.twin lists).failed = true from hfailed)]
    exact ⟨lists, h, rfl⟩
  rw [if_neg hfailed] at huncut hok ⊢
  rw [if_neg (show ¬ (m.twin lists).failed = true from hfailed)]
  rcases ha : m.askDue with ⟨e | _, m'⟩ <;> rw [ha] at huncut hok
  · exact absurd rfl (hok e)
  dsimp only at huncut
  rw [feeds_handOut] at huncut
  obtain ⟨lists', hsupplied, htwin⟩ := twin_askDue h (ha ▸ huncut) (congrArg Prod.fst ha)
  rw [ha] at hsupplied htwin
  rw [htwin]
  -- both hand out the least of the same heads
  refine ⟨lists', ?_, ?_⟩
  · rw [Supplied, feeds_handOut]
    exact hsupplied
  · have hheads : (m'.twin lists').heads.pop (Head.order (m'.twin lists').order) =
        m'.heads.pop (Head.order m'.order) := rfl
    dsimp only
    cases hpop : m'.heads.pop (Head.order m'.order) with
    | none => rw [handOut_of_none hpop, handOut_of_none (hheads.trans hpop)]
    | some popped => rw [handOut_of_some hpop, handOut_of_some (hheads.trans hpop)]; rfl

/-! ## Which error is met -/

/-- The errors ahead of readers, each of which is a party. -/
def errorsAhead (readers : List RecordReader) : List (List StreamError) :=
  readers.map fun r => r.source.errorsAhead

/-- A reader that has been asked has met the error that it tells. -/
theorem meets_set {readers : List RecordReader} {i : Nat} {r r' : RecordReader}
    {met : Option StreamError} (hi : readers[i]? = some r)
    (h : r.source.errorsAhead = met.toList ++ r'.source.errorsAhead) :
    Meets met (errorsAhead readers) (errorsAhead (readers.set i r')) := by
  have hget : (errorsAhead readers)[i]? = some r.source.errorsAhead := by
    rw [errorsAhead, List.getElem?_map, hi]
    rfl
  rw [errorsAhead, errorsAhead, List.map_set]
  cases met with
  | none => exact set_getElem?_self (hget.trans (congrArg some h))
  | some e => exact ⟨i, _, hget.trans (congrArg some h), rfl⟩

/-- The error that asking a feed meets is the first one ahead of it. -/
theorem meets_ask (m : Merger RecordReader) (i : Nat) :
    Meets (errorOf (m.ask i).1) (errorsAhead m.feeds) (errorsAhead (m.ask i).2.feeds) := by
  unfold ask
  split
  · rfl
  split
  · rfl
  rename_i r hr
  have hmet : r.source.errorsAhead =
      (errorOf (RecordFeed.next r).1).toList ++ (RecordFeed.next r).2.source.errorsAhead :=
    r.errorsAhead_next
  rcases hn : RecordFeed.next r with ⟨e | _ | p, r'⟩ <;> rw [hn] at hmet
  · exact meets_set hr hmet
  · exact meets_set hr hmet
  · exact meets_set hr hmet

/-- The error that asking feeds meets is the first one ahead of them. -/
theorem meets_askAll (m : Merger RecordReader) (feeds : List Nat) :
    Meets (errorOf (m.askAll feeds).1) (errorsAhead m.feeds)
      (errorsAhead (m.askAll feeds).2.feeds) := by
  induction feeds generalizing m with
  | nil => rfl
  | cons i rest ih =>
    have hfirst := m.meets_ask i
    rw [askAll]
    rcases ha : m.ask i with ⟨e | _, m'⟩ <;> rw [ha] at hfirst
    · exact hfirst
    · exact hfirst.trans (ih m')

/-- The error that asking the due feeds meets is the first one ahead of them. -/
theorem meets_askDue (m : Merger RecordReader) :
    Meets (errorOf m.askDue.1) (errorsAhead m.feeds) (errorsAhead m.askDue.2.feeds) := by
  have hstart : Meets (errorOf m.start.1) (errorsAhead m.feeds) (errorsAhead m.start.2.feeds) := by
    unfold start
    split
    · rfl
    · exact meets_askAll { m with started := true } _
  unfold askDue
  rcases hs : m.start with ⟨e | _, m'⟩ <;> rw [hs] at hstart
  · exact hstart
  · refine hstart.trans ?_
    dsimp only
    unfold askPending
    split
    · rfl
    · exact meets_ask { m' with pending := none } _

/-- **A merge passes on the error that a reader tells**, and meets no other. -/
theorem meets_next (m : Merger RecordReader) :
    Meets (errorOf m.next.1) (errorsAhead m.feeds) (errorsAhead m.next.2.feeds) := by
  have hdue := m.meets_askDue
  unfold next
  split
  · rfl
  rcases ha : m.askDue with ⟨e | _, m'⟩ <;> rw [ha] at hdue
  · exact hdue
  · have hanswer : errorOf m'.handOut.1 = none := by
      unfold handOut
      split <;> rfl
    dsimp only
    rw [hanswer, feeds_handOut]
    exact hdue

end Merger

namespace RecordWriter

variable {w : RecordWriter} {m : Merger RecordReader} {lists : List (List Record)}

/-- **Merging into a writer meets the error that it tells**, be it one of a reader or of the sink, and no
other. -/
theorem meets_pour (hsplit : w.policy = .split) :
    Meets (errorOf (w.pour m).1) (Merger.errorsAhead m.feeds ++ [w.sink.errorsAhead])
      (Merger.errorsAhead (w.pour m).2.2.feeds ++ [(w.pour m).2.1.sink.errorsAhead]) := by
  induction hw : FiniteFeed.weight m using Nat.strongRecOn generalizing w m with
  | ind n ih =>
    have hnext := m.meets_next
    have hlt := FiniteFeed.weight_next_lt m
    rcases hn : RecordFeed.next m with ⟨e | _ | r, m'⟩ <;> rw [hn] at hlt <;>
      rw [show m.next = _ from hn] at hnext
    · rw [pour_of_error hn]
      exact hnext.append_right _
    · rw [pour_of_none hn]
      exact hnext.append_right _
    · have hwrite := errorsAhead_write hsplit r
      have hspends := w.spends_write r
      rw [pour_of_record hn]
      refine (hnext.append_right [w.sink.errorsAhead]).trans ?_
      rcases ha : w.write r with ⟨e | _, w'⟩ <;> rw [ha] at hwrite hspends
      · exact (Meets.of_eq_append hwrite).append_left _
      · have hrest := ih _ (hw ▸ hlt (by simp)) (hspends.policy.trans hsplit) rfl
        refine ((Meets.of_eq_append hwrite).append_left _).trans ?_
        dsimp only
        cases hcount : (w'.pour m').1 <;> rw [hcount] at hrest <;> exact hrest

/-- **What is written up to the first error** are the first of the records that the twin hands out, and all
of them if there is no error. -/
theorem pour_twin (h : m.Supplied lists) (huncut : ∀ r ∈ (w.pour m).2.2.feeds, r.Uncut) :
    ∃ rs, rs <+: (drain (m.twin lists)).records ∧ (w.pour m).2.1 = (w.writeRecords rs).2 ∧
      ∀ n, (w.pour m).1 = .ok n →
        n = rs.length ∧ rs = (drain (m.twin lists)).records ∧ (w.writeRecords rs).1 = .ok () := by
  induction hw : FiniteFeed.weight m using Nat.strongRecOn generalizing w m lists with
  | ind n ih =>
    have hlt := FiniteFeed.weight_next_lt m
    have htwin : (∀ r ∈ m.next.2.feeds, r.Uncut) → (∀ e, m.next.1 ≠ .error e) → _ := m.twin_next h
    rcases hn : RecordFeed.next m with ⟨e | _ | r, m'⟩ <;> rw [hn] at hlt <;>
      rw [show m.next = _ from hn] at htwin
    · rw [pour_of_error hn]
      exact ⟨[], List.nil_prefix, rfl, fun n hok => by contradiction⟩
    · rw [pour_of_none hn] at huncut ⊢
      obtain ⟨lists', -, hnone⟩ := htwin huncut (by simp)
      rw [drain_of_none hnone]
      exact ⟨[], List.nil_prefix, rfl, fun n hok => ⟨(Except.ok.inj hok).symm, rfl, rfl⟩⟩
    · rw [pour_of_record hn] at huncut ⊢
      rcases ha : w.write r with ⟨e | _, w'⟩ <;> rw [ha] at huncut <;> dsimp only at huncut ⊢
      -- the record cannot be written
      · obtain ⟨lists', -, hsome⟩ := htwin huncut (by simp)
        rw [drain_of_record hsome]
        refine ⟨[r], List.cons_prefix_cons.2 ⟨rfl, List.nil_prefix⟩, ?_, fun n hok => by contradiction⟩
        rw [writeRecords, ha]
      · have hafter : ∀ r ∈ m'.feeds, r.Uncut :=
          forall_uncut_of_forall₂ (RecordReader.advances_uncut.pour m' w') huncut
        obtain ⟨lists', hsupplied, hsome⟩ := htwin hafter (by simp)
        obtain ⟨rs, hprefix, hwriter, hall⟩ := ih _ (hw ▸ hlt (by simp)) hsupplied huncut rfl
        rw [drain_of_record hsome]
        refine ⟨r :: rs, List.cons_prefix_cons.2 ⟨rfl, hprefix⟩, ?_, ?_⟩
        · rw [writeRecords, ha, hwriter]
        · intro n hok
          cases hcount : (w'.pour m').1 with
          | error e => rw [hcount] at hok; contradiction
          | ok k =>
            obtain ⟨rfl, rfl, hwritten⟩ := hall k hcount
            rw [hcount] at hok
            refine ⟨(Except.ok.inj hok).symm, rfl, ?_⟩
            rw [writeRecords, ha]
            exact hwritten

end RecordWriter

end RecordSort
