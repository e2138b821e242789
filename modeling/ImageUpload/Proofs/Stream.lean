import ImageUpload.Proofs.NonZero
import ImageUpload.Source.Stream

/-
What a consumer gets of ranges that are read ahead of it.

The chunks that the consumer has taken, the one in the slot, the one in the producer's hand and
those of the ranges that can still be read are together always the same, in the same order:
`Carries`.  So in whatever way the moves of the two sides interleave, the consumer gets a first
part of the ranges that can be read, and all of them if it waits for the end, `stream_prefix`.
That reading has stopped before a range is not told if the range was too long for any buffer.
The end comes, because every move leaves fewer moves ahead, `ahead`, and before the end one of
the two sides can always move, `isSome_step_nextMove`.
-/

namespace ImageUpload

/-- A range with its bytes in a source. -/
def Chunk.of (source : Source) (range : ByteRange) : Chunk :=
  ⟨range, source.slice range⟩

/-- The chunk has all the bytes of its range. -/
def Chunk.Whole (source : Source) (c : Chunk) : Prop :=
  c = .of source c.range ∧ c.data.size = c.range.length

/-- How a producer ends that cannot read a range. -/
def StreamEnd.ofFault : SourceFault → StreamEnd
  | .failed e => .failed e
  | .panicked => .panicked

/-- What a consumer is told of a fault. -/
def SourceFault.error? : SourceFault → Option TransferError
  | .failed e => some e
  | .panicked => none

namespace Reader

/-! ## Where reading stops -/

/-- Of these ranges, read one after another, this many can be read in full.  Then the calls for
the next one fail, which makes the error, or there is no room for it, or none is left. -/
inductive Stops : Reader → List ByteRange → Nat → Option TransferError → Prop where
  | finished (r : Reader) : Stops r [] 0 none
  | failed {r : Reader} {range : ByteRange} {rest : List ByteRange} {reason : String}
    (hfails : r.Fails range reason) :
    Stops r (range :: rest) 0 (some (.sourceRead range.first reason))
  | cramped {r : Reader} {range : ByteRange} {rest : List ByteRange}
    (hroom : r.source.room range.length = false) : Stops r (range :: rest) 0 none
  | passed {r r₁ r₂ : Reader} {range : ByteRange} {rest : List ByteRange} {data : ByteArray}
    {i : Nat} {error : Option TransferError} (hroom : r.source.room range.length = true)
    (hseek : r.seek range.first = (.ready, r₁)) (hfills : Fills range.length .empty r₁ (.ok data) r₂)
    (hrest : Stops r₂ rest i error) : Stops r (range :: rest) (i + 1) error

variable {r r' : Reader} {range : ByteRange} {ranges rest : List ByteRange} {i : Nat}
  {error : Option TransferError}

theorem exists_stops (h : r.source.Steady) (ranges : List ByteRange) :
    ∃ i error, r.Stops ranges i error := by
  induction ranges generalizing r with
  | nil => exact ⟨0, none, .finished r⟩
  | cons range rest ih =>
    have hsource := r.readRange_source range
    cases hroom : r.source.room range.length with
    | false => exact ⟨0, none, .cramped hroom⟩
    | true =>
      rcases hread : r.readRange range with ⟨(e | _) | data, r'⟩
      · obtain ⟨reason, -, hfails⟩ := fails_of_readRange hread
        exact ⟨0, _, .failed hfails⟩
      · exact absurd hread (readRange_steady h hroom r')
      · rw [hread] at hsource
        obtain ⟨-, r₁, hseek, hfills⟩ := fills_of_readRange hread
        obtain ⟨i, error, hrest⟩ := ih (r := r') (hsource ▸ h)
        exact ⟨i + 1, error, .passed hroom hseek hfills hrest⟩

/-- The error is that of the first range that is not read in full, if there is room for it. -/
theorem Stops.error_eq (h : r.Stops ranges i error) :
    i = ranges.length ∧ error = none ∨
      ∃ range, ranges[i]? = some range ∧
        ((∃ reason, error = some (.sourceRead range.first reason)) ∨
          r.source.room range.length = false ∧ error = none) := by
  induction h with
  | finished r => exact .inl ⟨rfl, rfl⟩
  | failed hfails => exact .inr ⟨_, rfl, .inl ⟨_, rfl⟩⟩
  | cramped hroom => exact .inr ⟨_, rfl, .inr ⟨hroom, rfl⟩⟩
  | @passed r r₁ r₂ range' rest data i error hroom hseek hfills hrest ih =>
    have hsource := r.readRange_source range'
    rw [readRange_of_fills hroom hseek hfills] at hsource
    rw [hsource] at ih
    rcases ih with ⟨hi, herror⟩ | ⟨range, hrange, hcause⟩
    · exact .inl ⟨congrArg (· + 1) hi, herror⟩
    · exact .inr ⟨range, hrange, hcause⟩

/-- The ranges before lie within the source. -/
theorem Stops.size_slice (h : r.Stops ranges i error) {range : ByteRange}
    (hrange : range ∈ ranges.take i) : (r.source.slice range).size = range.length := by
  induction h with
  | finished r => simp at hrange
  | failed hfails => simp at hrange
  | cramped hroom => simp at hrange
  | @passed r r₁ r₂ range' rest data i error hroom hseek hfills hrest ih =>
    have hread := readRange_of_fills hroom hseek hfills
    have hsource := r.readRange_source range'
    rw [hread] at hsource
    rw [List.take_succ_cons, List.mem_cons] at hrange
    rcases hrange with rfl | hrange
    · obtain ⟨hdata, hsize⟩ := readRange_ok hread
      rw [← hdata, hsize]
    · rw [← hsource]
      exact ih hrange

/-- The next range has been read, so one fewer is to be read. -/
theorem Stops.of_read {data : ByteArray} (h : r.Stops (range :: rest) i error)
    (hread : r.readRange range = (.ok data, r')) : ∃ j, i = j + 1 ∧ r'.Stops rest j error := by
  cases h with
  | failed hfails =>
    obtain ⟨r₁, hfault⟩ := readRange_of_fails hfails
    rw [hread] at hfault
    exact nomatch hfault
  | cramped hroom => exact nomatch hread.symm.trans (readRange_without_room hroom)
  | passed hroom hseek hfills hrest =>
    obtain ⟨-, rfl⟩ := Prod.mk.inj (hread.symm.trans (readRange_of_fills hroom hseek hfills))
    exact ⟨_, rfl, hrest⟩

/-- The next range could not be read, so it is the one that reading stops at.  Of a panic the
consumer is not told. -/
theorem Stops.of_misread {f : SourceFault} (h : r.Stops (range :: rest) i error)
    (hread : r.readRange range = (.error f, r')) : i = 0 ∧ error = f.error? := by
  cases h with
  | failed hfails =>
    obtain ⟨r₁, hfault⟩ := readRange_of_fails hfails
    rw [hread] at hfault
    cases hfault
    exact ⟨rfl, rfl⟩
  | cramped hroom =>
    cases hread.symm.trans (readRange_without_room hroom)
    exact ⟨rfl, rfl⟩
  | passed hroom hseek hfills hrest =>
    exact nomatch hread.symm.trans (readRange_of_fills hroom hseek hfills)

end Reader

namespace Stream

/-! ## Moves -/

/-- What one move of either side does, and the chunk that it gives the consumer. -/
inductive Step (s : Stream) : Move → Option Chunk → Stream → Prop where
  | read (range : ByteRange) (rest : List ByteRange) (data : ByteArray) (reader : Reader)
    (hended : s.ended = none) (hhand : s.hand = none) (hremaining : s.remaining = range :: rest)
    (hread : s.reader.readRange range = (.ok data, reader)) :
    Step s .read none { s with reader := reader, remaining := rest, hand := some ⟨range, data⟩ }
  | misread (range : ByteRange) (rest : List ByteRange) (f : SourceFault) (reader : Reader)
    (hended : s.ended = none) (hhand : s.hand = none) (hremaining : s.remaining = range :: rest)
    (hread : s.reader.readRange range = (.error f, reader)) :
    Step s .read none { s with reader := reader, ended := some (.ofFault f) }
  | offer (c : Chunk) (hended : s.ended = none) (hhand : s.hand = some c)
    (hwanted : s.wanted = true) (hslot : s.slot = none) :
    Step s .offer none { s with hand := none, slot := some c }
  | withhold (c : Chunk) (hended : s.ended = none) (hhand : s.hand = some c)
    (hwanted : s.wanted = false) :
    Step s .offer none { s with hand := none, ended := some .finished }
  | close (hended : s.ended = none) (hhand : s.hand = none) (hremaining : s.remaining = []) :
    Step s .close none { s with ended := some .finished }
  | receive (c : Chunk) (hwanted : s.wanted = true) (hslot : s.slot = some c) :
    Step s .receive (some c) { s with slot := none }
  | drop (hwanted : s.wanted = true) : Step s .drop none s.drop

variable {s s' : Stream} {m : Move} {c : Option Chunk}

theorem step_of_read (h : s.read = some s') : Step s .read none s' := by
  unfold read at h
  split at h
  next range rest hended hhand hremaining =>
    split at h
    next data reader hread =>
      cases h
      exact .read range rest data reader hended hhand hremaining hread
    next e reader hread =>
      cases h
      exact .misread range rest _ reader hended hhand hremaining hread
    next reader hread =>
      cases h
      exact .misread range rest _ reader hended hhand hremaining hread
  next _ => exact nomatch h

theorem step_of_offer (h : s.offer = some s') : Step s .offer none s' := by
  unfold offer at h
  split at h
  next c hended hhand =>
    split at h
    next hwanted =>
      split at h
      next hslot =>
        cases h
        exact .offer c hended hhand hwanted hslot
      next _ => exact nomatch h
    next hwanted =>
      cases h
      exact .withhold c hended hhand (Bool.eq_false_iff.mpr hwanted)
  next _ => exact nomatch h

theorem step_of_close (h : s.close = some s') : Step s .close none s' := by
  unfold close at h
  split at h
  next hended hhand hremaining =>
    cases h
    exact .close hended hhand hremaining
  next _ => exact nomatch h

theorem step_of_receive {c : Chunk} (h : s.receive = some (c, s')) :
    Step s .receive (some c) s' := by
  unfold receive at h
  split at h
  next hwanted =>
    obtain ⟨c', hslot, heq⟩ := Option.map_eq_some_iff.mp h
    cases heq
    exact .receive c hwanted hslot
  next _ => exact nomatch h

theorem step_of_step (h : s.step m = some (c, s')) : Step s m c s' := by
  cases m with
  | read =>
    obtain ⟨_, hread, heq⟩ := Option.map_eq_some_iff.mp h
    cases heq
    exact step_of_read hread
  | offer =>
    obtain ⟨_, hoffer, heq⟩ := Option.map_eq_some_iff.mp h
    cases heq
    exact step_of_offer hoffer
  | close =>
    obtain ⟨_, hclose, heq⟩ := Option.map_eq_some_iff.mp h
    cases heq
    exact step_of_close hclose
  | receive =>
    obtain ⟨_, hreceive, heq⟩ := Option.map_eq_some_iff.mp h
    cases heq
    exact step_of_receive hreceive
  | drop =>
    simp only [step] at h
    split at h
    next hwanted =>
      cases h
      exact .drop hwanted
    next _ => exact nomatch h

/-- The moves in turn, with the chunks that they give the consumer. -/
def run (s : Stream) : List Move → Option (List Chunk × Stream)
  | [] => some ([], s)
  | m :: moves =>
    (s.step m).bind fun (c, s) => (s.run moves).map fun (chunks, s) => (c.toList ++ chunks, s)

theorem run_cons {moves : List Move} {chunks : List Chunk} :
    s.run (m :: moves) = some (chunks, s') ↔ ∃ c s₁ rest,
      s.step m = some (c, s₁) ∧ s₁.run moves = some (rest, s') ∧ chunks = c.toList ++ rest := by
  simp only [run, Option.bind_eq_some_iff, Option.map_eq_some_iff, Prod.exists, Prod.mk.injEq]
  constructor
  · rintro ⟨c, s₁, hstep, rest, _, hrun, rfl, rfl⟩
    exact ⟨c, s₁, rest, hstep, hrun, rfl⟩
  · rintro ⟨c, s₁, rest, hstep, hrun, rfl⟩
    exact ⟨c, s₁, hstep, rest, s', hrun, rfl, rfl⟩

/-- What every move keeps of a stream and of the chunks that the consumer has, every run keeps. -/
theorem run_induction {P : Stream → List Chunk → Prop}
    (hstep : ∀ {s m c s' received}, P s received → Step s m c s' → P s' (received ++ c.toList))
    (received : List Chunk) (h : P s received) {moves : List Move} {chunks : List Chunk}
    (hrun : s.run moves = some (chunks, s')) : P s' (received ++ chunks) := by
  induction moves generalizing s received chunks with
  | nil =>
    cases hrun
    rw [List.append_nil]
    exact h
  | cons m moves ih =>
    obtain ⟨c, s₁, rest, hfirst, hrest, rfl⟩ := run_cons.mp hrun
    rw [← List.append_assoc]
    exact ih _ (hstep h (step_of_step hfirst)) hrest

theorem Step.wanted_of_drop (h : Step s m c s') (hm : m = .drop) : s'.wanted = false := by
  subst hm
  cases h with
  | drop => rfl

theorem Step.wanted_eq (h : Step s m c s') (hm : m ≠ .drop) : s'.wanted = s.wanted := by
  cases h with
  | drop => exact absurd rfl hm
  | read | misread | offer | withhold | close | receive => rfl

theorem Step.of_some {c : Chunk} (h : Step s m (some c) s') :
    m ≠ .drop ∧ s.wanted = true ∧ s'.wanted = true := by
  cases h with
  | receive c hwanted hslot => exact ⟨nofun, hwanted, hwanted⟩

/-! ## The end -/

/-- A bound on the moves that can still come: each range is read, offered and received, then the
producer ends, and the consumer may leave. -/
def ahead (s : Stream) : Nat :=
  3 * s.remaining.length + 2 * s.hand.toList.length + s.slot.toList.length +
    (if s.ended.isNone then 1 else 0) + if s.wanted then 1 else 0

theorem ahead_step (h : Step s m c s') : s'.ahead < s.ahead := by
  cases h with
  | read range rest data reader hended hhand hremaining hread =>
    simp only [ahead, hhand, hremaining, List.length_cons, Option.toList_some, Option.toList_none,
      List.length_nil]
    omega
  | misread range rest f reader hended hhand hremaining hread => simp [ahead, hended]
  | offer c hended hhand hwanted hslot => simp [ahead, hhand, hslot]
  | withhold c hended hhand hwanted =>
    simp only [ahead, hended, hhand, Option.toList_some, Option.toList_none, List.length_singleton,
      List.length_nil, Option.isNone_none, Option.isNone_some, if_true, Bool.false_eq_true, if_false]
    omega
  | close hended hhand hremaining => simp [ahead, hended]
  | receive c hwanted hslot => simp [ahead, hslot]
  | drop hwanted =>
    have hleft : s.drop.ahead =
        3 * s.remaining.length + 2 * s.hand.toList.length +
          if s.ended.isNone then 1 else 0 := rfl
    rw [hleft, ahead, if_pos hwanted]
    omega

theorem length_run_le {moves : List Move} {chunks : List Chunk}
    (h : s.run moves = some (chunks, s')) : moves.length + s'.ahead ≤ s.ahead := by
  induction moves generalizing s chunks with
  | nil =>
    cases h
    simp
  | cons m moves ih =>
    obtain ⟨c, s₁, rest, hstep, hrun, -⟩ := run_cons.mp h
    have hfewer := ahead_step (step_of_step hstep)
    have hrest := ih hrun
    rw [List.length_cons]
    omega

/-- What does not depend on what is read: a consumer that left has no chunk in the slot, and a
producer that ended has none in hand. -/
structure Tidy (s : Stream) : Prop where
  slot : s.wanted = false → s.slot = none
  hand : s.ended ≠ none → s.hand = none

theorem tidy_start (r : Reader) (ranges : List ByteRange) : (start r ranges).Tidy :=
  ⟨fun _ => rfl, fun _ => rfl⟩

theorem Tidy.step (h : s.Tidy) (hstep : Step s m c s') : s'.Tidy := by
  cases hstep with
  | read range rest data reader hended => exact ⟨h.slot, fun hend => absurd hended hend⟩
  | misread range rest f reader hended hhand => exact ⟨h.slot, fun _ => hhand⟩
  | offer c hended hhand hwanted => exact ⟨fun hno => by simp [hwanted] at hno, fun _ => rfl⟩
  | withhold => exact ⟨h.slot, fun _ => rfl⟩
  | close hended hhand => exact ⟨h.slot, fun _ => hhand⟩
  | receive => exact ⟨fun _ => rfl, h.hand⟩
  | drop => exact ⟨fun _ => rfl, h.hand⟩

theorem Tidy.run (h : s.Tidy) {moves : List Move} {chunks : List Chunk}
    (hrun : s.run moves = some (chunks, s')) : s'.Tidy :=
  run_induction (P := fun s _ => s.Tidy) (fun h hstep => h.step hstep) [] h hrun

/-- The next move can be made, unless the stream has ended for a consumer that still takes
chunks. -/
theorem isSome_step_nextMove (h : s.Tidy) (wish : Option Nat)
    (hmore : s.exhausted = false ∨ s.wanted = true ∧ wish = some 0) :
    (s.step (s.nextMove wish)).isSome = true := by
  unfold nextMove
  by_cases hleaves : s.wanted = true ∧ wish = some 0
  · rw [if_pos hleaves]
    simp [step, hleaves.1]
  · have hno : s.exhausted = false := by
      rcases hmore with hno | hleaves'
      · exact hno
      · exact absurd hleaves' hleaves
    rw [if_neg hleaves]
    cases hslot : s.slot with
    | some c =>
      have hwanted : s.wanted = true := by
        by_cases hwanted : s.wanted = true
        · exact hwanted
        · rw [h.slot (by simpa using hwanted)] at hslot
          exact nomatch hslot
      simp [step, receive, hwanted, hslot]
    | none =>
      have hended : s.ended = none := by simpa [exhausted, hslot] using hno
      cases hhand : s.hand with
      | some c =>
        by_cases hwanted : s.wanted = true
        · simp [step, offer, hended, hhand, hslot, hwanted]
        · simp [step, offer, hended, hhand, hwanted]
      | none =>
        cases hremaining : s.remaining with
        | nil => simp [step, close, hended, hhand, hremaining]
        | cons range rest =>
          rcases hread : s.reader.readRange range with ⟨(e | _) | data, r'⟩
          · simp [step, read, hended, hhand, hremaining, hread]
          · simp [step, read, hended, hhand, hremaining, hread]
          · simp [step, read, hended, hhand, hremaining, hread]

theorem nextMove_ne_drop {wish : Option Nat} (h : ¬(s.wanted = true ∧ wish = some 0)) :
    s.nextMove wish ≠ .drop := by
  unfold nextMove
  rw [if_neg h]
  split
  next _ => exact nofun
  next _ =>
    split
    next _ => exact nofun
    next _ =>
      split
      next _ => exact nofun
      next _ => exact nofun

/-! ## What is delivered -/

/-- While the consumer wants chunks, those it has taken, those on their way and those of the ranges
that can still be read make up what there is to expect. -/
structure Carries (source : Source) (expected : List Chunk) (error : Option TransferError)
    (received : List Chunk) (s : Stream) : Prop where
  same : s.reader.source = source
  front : received <+: expected
  working : s.wanted = true → s.ended = none → ∃ i, s.reader.Stops s.remaining i error ∧
    received ++ s.slot.toList ++ s.hand.toList ++ (s.remaining.take i).map (.of source) = expected
  ended : s.wanted = true → s.ended ≠ none →
    received ++ s.slot.toList = expected ∧ s.error? = error

variable {source : Source} {expected received : List Chunk} {error : Option TransferError}

theorem carries_start {r : Reader} {ranges : List ByteRange} {i : Nat}
    (h : r.Stops ranges i error) :
    (start r ranges).Carries r.source ((ranges.take i).map (.of r.source)) error [] :=
  { same := rfl
    front := List.nil_prefix
    working := fun _ _ => ⟨i, h, rfl⟩
    ended := fun _ hend => absurd rfl hend }

theorem Carries.read (h : s.Carries source expected error received) {range : ByteRange}
    {rest : List ByteRange} {data : ByteArray} {reader : Reader} (hended : s.ended = none)
    (hhand : s.hand = none) (hremaining : s.remaining = range :: rest)
    (hread : s.reader.readRange range = (.ok data, reader)) :
    ({ s with reader := reader, remaining := rest, hand := some ⟨range, data⟩ } : Stream).Carries
      source expected error received := by
  have hsource := s.reader.readRange_source range
  rw [hread] at hsource
  refine ⟨hsource.trans h.same, h.front, fun hwanted _ => ?_, fun _ hend => absurd hended hend⟩
  obtain ⟨i, hstops, hall⟩ := h.working hwanted hended
  rw [hremaining] at hstops hall
  obtain ⟨j, rfl, hrest⟩ := hstops.of_read hread
  have hchunk : (⟨range, data⟩ : Chunk) = .of source range := by
    rw [(Reader.readRange_ok hread).1, h.same]
    rfl
  refine ⟨j, hrest, ?_⟩
  rw [← hall, hhand, hchunk, List.take_succ_cons]
  simp

theorem Carries.misread (h : s.Carries source expected error received) {range : ByteRange}
    {rest : List ByteRange} {f : SourceFault} {reader : Reader} (hended : s.ended = none)
    (hhand : s.hand = none) (hremaining : s.remaining = range :: rest)
    (hread : s.reader.readRange range = (.error f, reader)) :
    ({ s with reader := reader, ended := some (.ofFault f) } : Stream).Carries
      source expected error received := by
  have hsource := s.reader.readRange_source range
  rw [hread] at hsource
  refine ⟨hsource.trans h.same, h.front, fun _ => nofun, fun hwanted _ => ?_⟩
  obtain ⟨i, hstops, hall⟩ := h.working hwanted hended
  rw [hremaining] at hstops
  obtain ⟨rfl, rfl⟩ := hstops.of_misread hread
  rw [hhand] at hall
  exact ⟨by simpa using hall, by cases f <;> rfl⟩

/-- What is in the slot is the next chunk to expect. -/
theorem Carries.front_of_slot (h : s.Carries source expected error received) {c : Chunk}
    (hwanted : s.wanted = true) (hslot : s.slot = some c) : received ++ [c] <+: expected := by
  by_cases hended : s.ended = none
  · obtain ⟨i, -, hall⟩ := h.working hwanted hended
    rw [hslot, List.append_assoc] at hall
    exact ⟨_, hall⟩
  · obtain ⟨hall, -⟩ := h.ended hwanted hended
    rw [hslot] at hall
    exact ⟨[], by rw [List.append_nil]; exact hall⟩

theorem Carries.step (h : s.Carries source expected error received) (hstep : Step s m c s') :
    s'.Carries source expected error (received ++ c.toList) := by
  cases hstep with
  | read range rest data reader hended hhand hremaining hread =>
    rw [Option.toList_none, List.append_nil]
    exact h.read hended hhand hremaining hread
  | misread range rest f reader hended hhand hremaining hread =>
    rw [Option.toList_none, List.append_nil]
    exact h.misread hended hhand hremaining hread
  | offer c hended hhand hwanted hslot =>
    rw [Option.toList_none, List.append_nil]
    refine ⟨h.same, h.front, fun _ _ => ?_, fun _ hend => absurd hended hend⟩
    obtain ⟨i, hstops, hall⟩ := h.working hwanted hended
    refine ⟨i, hstops, ?_⟩
    rw [← hall, hhand, hslot]
    simp
  | withhold c hended hhand hwanted =>
    rw [Option.toList_none, List.append_nil]
    exact ⟨h.same, h.front, fun _ => nofun, fun hyes => by rw [hwanted] at hyes; exact nomatch hyes⟩
  | close hended hhand hremaining =>
    rw [Option.toList_none, List.append_nil]
    refine ⟨h.same, h.front, fun _ => nofun, fun hwanted _ => ?_⟩
    obtain ⟨i, hstops, hall⟩ := h.working hwanted hended
    rw [hremaining] at hstops
    cases hstops with
    | finished => exact ⟨by simpa [hhand, hremaining] using hall, rfl⟩
  | receive c hwanted hslot =>
    refine ⟨h.same, h.front_of_slot hwanted hslot, fun _ hended => ?_, fun _ hend => ?_⟩
    · obtain ⟨i, hstops, hall⟩ := h.working hwanted hended
      exact ⟨i, hstops, by simpa [hslot] using hall⟩
    · obtain ⟨hall, herror⟩ := h.ended hwanted hend
      exact ⟨by simpa [hslot] using hall, herror⟩
  | drop hwanted =>
    rw [Option.toList_none, List.append_nil]
    exact ⟨h.same, h.front, nofun, nofun⟩

theorem Carries.run (h : s.Carries source expected error received) {moves : List Move}
    {chunks : List Chunk} (hrun : s.run moves = some (chunks, s')) :
    s'.Carries source expected error (received ++ chunks) :=
  run_induction (P := fun s received => s.Carries source expected error received)
    (fun h hstep => h.step hstep) received h hrun

/-- A consumer that has met the end has all there is. -/
theorem Carries.complete (h : s.Carries source expected error received)
    (hwanted : s.wanted = true) (hexhausted : s.exhausted = true) :
    received = expected ∧ s.error? = error := by
  simp only [exhausted, Bool.and_eq_true, Option.isSome_iff_ne_none, Option.isNone_iff_eq_none]
    at hexhausted
  obtain ⟨hended, hslot⟩ := hexhausted
  obtain ⟨hall, herror⟩ := h.ended hwanted hended
  rw [hslot] at hall
  exact ⟨by simpa using hall, herror⟩

/-! ## A consumer that stops -/

/-- A consumer that takes at most `n` chunks is through: it has them, or it has met the end. -/
def Served (n received : Nat) (s : Stream) : Prop :=
  received = n ∨ received ≤ n ∧ s.wanted = true ∧ s.exhausted = true

theorem Carries.received_eq (h : s.Carries source expected error received) {n : Nat}
    (hserved : s.Served n received.length) : received = expected.take n := by
  rcases hserved with hlength | ⟨hle, hwanted, hexhausted⟩
  · rw [← hlength]
    exact List.prefix_iff_eq_take.mp h.front
  · obtain ⟨rfl, -⟩ := h.complete hwanted hexhausted
    exact (List.take_of_length_le hle).symm

theorem run_drain (moves : Nat) (wish : Option Nat) (s : Stream) :
    ∃ made, s.run made = some (s.drain moves wish) := by
  induction moves generalizing wish s with
  | zero => exact ⟨[], rfl⟩
  | succ moves ih =>
    rw [drain]
    split
    next _ => exact ⟨[], rfl⟩
    next s₁ hstep =>
      obtain ⟨made, hrun⟩ := ih wish s₁
      exact ⟨s.nextMove wish :: made, run_cons.mpr ⟨none, s₁, _, hstep, hrun, rfl⟩⟩
    next c s₁ hstep =>
      obtain ⟨made, hrun⟩ := ih (wish.map (· - 1)) s₁
      exact ⟨s.nextMove wish :: made, run_cons.mpr ⟨some c, s₁, _, hstep, hrun, rfl⟩⟩

theorem drain_of_left {moves : Nat} (wish : Option Nat) (h : s.Tidy) (hleft : s.wanted = false) :
    (s.drain moves wish).1 = [] := by
  induction moves generalizing s with
  | zero => rfl
  | succ moves ih =>
    rw [drain]
    split
    next _ => rfl
    next s₁ hstep =>
      have hstep' := step_of_step hstep
      have hmove : s.nextMove wish ≠ .drop := nextMove_ne_drop (by simp [hleft])
      exact ih (h.step hstep') ((hstep'.wanted_eq hmove).trans hleft)
    next c s₁ hstep =>
      obtain ⟨-, hwanted, -⟩ := (step_of_step hstep).of_some
      exact nomatch hleft.symm.trans hwanted

/-- With moves enough a consumer that wishes for all chunks meets the end. -/
theorem drain_all (moves : Nat) (h : s.Tidy) (hmoves : s.ahead ≤ moves) (hwanted : s.wanted = true) :
    (s.drain moves none).2.wanted = true ∧ (s.drain moves none).2.exhausted = true := by
  induction moves generalizing s with
  | zero => simp [ahead, hwanted] at hmoves
  | succ moves ih =>
    have hmove : s.nextMove none ≠ .drop := nextMove_ne_drop (by simp)
    rw [drain]
    split
    next hstep =>
      refine ⟨hwanted, ?_⟩
      by_cases hexhausted : s.exhausted = true
      · exact hexhausted
      · have hmore := isSome_step_nextMove h none (.inl (by simpa using hexhausted))
        rw [hstep] at hmore
        exact nomatch hmore
    next s₁ hstep =>
      have hstep' := step_of_step hstep
      have hfewer := ahead_step hstep'
      exact ih (h.step hstep') (by omega) ((hstep'.wanted_eq hmove).trans hwanted)
    next c s₁ hstep =>
      have hstep' := step_of_step hstep
      have hfewer := ahead_step hstep'
      exact ih (h.step hstep') (by omega) ((hstep'.wanted_eq hmove).trans hwanted)

/-- One that wishes for some of them is served. -/
theorem drain_some (moves n : Nat) (h : s.Tidy) (hmoves : s.ahead ≤ moves)
    (hwanted : s.wanted = true) :
    (s.drain moves (some n)).2.Served n (s.drain moves (some n)).1.length := by
  induction moves generalizing n s with
  | zero => simp [ahead, hwanted] at hmoves
  | succ moves ih =>
    have hmore := isSome_step_nextMove h (some n)
    rw [drain]
    split
    next hstep =>
      rw [hstep] at hmore
      refine .inr ⟨Nat.zero_le n, hwanted, ?_⟩
      by_cases hexhausted : s.exhausted = true
      · exact hexhausted
      · exact nomatch hmore (.inl (by simpa using hexhausted))
    next s₁ hstep =>
      have hstep' := step_of_step hstep
      have hfewer := ahead_step hstep'
      by_cases hleaves : s.wanted = true ∧ some n = some 0
      · -- the consumer has had enough, and what the producer still does brings it nothing
        obtain ⟨-, hn⟩ := hleaves
        injection hn with hn
        subst hn
        have hgone : s₁.wanted = false := hstep'.wanted_of_drop (if_pos ⟨hwanted, rfl⟩)
        rw [drain_of_left _ (h.step hstep') hgone]
        exact .inl rfl
      · exact ih n (h.step hstep') (by omega)
          ((hstep'.wanted_eq (nextMove_ne_drop hleaves)).trans hwanted)
    next c s₁ hstep =>
      have hstep' := step_of_step hstep
      have hfewer := ahead_step hstep'
      obtain ⟨hmove, -, hwanted'⟩ := hstep'.of_some
      have hpos : n ≠ 0 := by
        rintro rfl
        exact hmove (if_pos ⟨hwanted, rfl⟩)
      rw [Option.map_some, List.length_cons]
      rcases ih (n - 1) (h.step hstep') (by omega) hwanted' with hlength | ⟨hle, hend⟩
      · exact .inl (by omega)
      · exact .inr ⟨by omega, hend⟩

end Stream

namespace Reader

variable {r : Reader} {ranges : List ByteRange} {i : Nat} {error : Option TransferError}

theorem stream_none (h : r.Stops ranges i error) :
    r.stream ranges none = ((ranges.take i).map (Chunk.of r.source), error) := by
  obtain ⟨hwanted, hexhausted⟩ := Stream.drain_all (3 * ranges.length + 3)
    (Stream.tidy_start r ranges) (by simp [Stream.ahead, Stream.start]) rfl
  obtain ⟨made, hrun⟩ := Stream.run_drain (3 * ranges.length + 3) none (.start r ranges)
  obtain ⟨hchunks, herror⟩ := ((Stream.carries_start h).run hrun).complete hwanted hexhausted
  exact Prod.ext hchunks herror

theorem stream_some (h : r.Stops ranges i error) (n : Nat) :
    (r.stream ranges (some n)).1 = (ranges.take (min n i)).map (Chunk.of r.source) := by
  have hserved := Stream.drain_some (3 * ranges.length + 3) n (Stream.tidy_start r ranges)
    (by simp [Stream.ahead, Stream.start]) rfl
  obtain ⟨made, hrun⟩ := Stream.run_drain (3 * ranges.length + 3) (some n) (.start r ranges)
  have hchunks := ((Stream.carries_start h).run hrun).received_eq hserved
  rw [← List.map_take, List.take_take] at hchunks
  exact hchunks

/-- However the moves of the two sides interleave, a consumer gets the ranges that can be read, in
order and each with all its bytes, and nothing of the others.  One that stops early gets as many of
the first of them.  One that does not gets them all and then meets the end, where the error tells of
the range that could not be read, unless there was no room for so many bytes: then the end is like
that of a stream that is complete.  The end comes after a bounded number of moves, because until
then one of the two sides can move. -/
theorem stream_prefix (h : r.source.Steady) (ranges : List ByteRange)
    (hlength : ∀ range ∈ ranges, range.length?.isSome = true) :
    (∃ i error, r.Stops ranges i error) ∧
      ∀ i error, r.Stops ranges i error →
        (i = ranges.length ∧ error = none ∨ ∃ range, ranges[i]? = some range ∧
          ((∃ reason, error = some (.sourceRead range.first reason)) ∨
            ∃ n, range.length? = some n ∧ r.source.room n = false ∧ error = none)) ∧
        (∀ c ∈ (ranges.take i).map (Chunk.of r.source), c.Whole r.source) ∧
        (∀ moves chunks s, (Stream.start r ranges).run moves = some (chunks, s) →
          moves.length ≤ 3 * ranges.length + 2 ∧
          (s.exhausted = false → ∃ m, m ≠ .drop ∧ (s.step m).isSome = true) ∧
          (s.wanted = true → s.exhausted = true →
            chunks = (ranges.take i).map (Chunk.of r.source) ∧ s.error? = error) ∧
          ∀ n, s.Served n chunks.length →
            chunks = (ranges.take (min n i)).map (Chunk.of r.source)) ∧
        r.stream ranges none = ((ranges.take i).map (Chunk.of r.source), error) ∧
        ∀ n, (r.stream ranges (some n)).1 = (ranges.take (min n i)).map (Chunk.of r.source) := by
  refine ⟨exists_stops h ranges, fun i error hstops => ⟨?_, ?_, ?_, stream_none hstops,
    stream_some hstops⟩⟩
  · rcases hstops.error_eq with hend | ⟨range, hrange, herror | ⟨hroom, herror⟩⟩
    · exact .inl hend
    · exact .inr ⟨range, hrange, .inl herror⟩
    · have hn := ByteRange.length?_of_isSome (hlength range (List.mem_of_getElem? hrange))
      exact .inr ⟨range, hrange, .inr ⟨_, hn, hroom, herror⟩⟩
  · intro c hc
    obtain ⟨range, hrange, rfl⟩ := List.mem_map.mp hc
    exact ⟨rfl, hstops.size_slice hrange⟩
  · intro moves chunks s hrun
    have hcarries : s.Carries _ _ _ chunks := (Stream.carries_start hstops).run hrun
    have htidy := (Stream.tidy_start r ranges).run hrun
    refine ⟨?_, fun hno => ?_, hcarries.complete, fun n hserved => ?_⟩
    · have hbound := Stream.length_run_le hrun
      have hstart : (Stream.start r ranges).ahead = 3 * ranges.length + 2 := by
        simp [Stream.ahead, Stream.start]
      omega
    · have hmove : s.nextMove none ≠ .drop := Stream.nextMove_ne_drop (by simp)
      exact ⟨s.nextMove none, hmove, Stream.isSome_step_nextMove htidy none (.inl hno)⟩
    · rw [hcarries.received_eq hserved, ← List.map_take, List.take_take]

/-- Every read brings one byte, and two are interrupted.  The ranges are out of order and overlap,
and the last one reaches past the end of the source.  One consumer waits for the end, and another
one leaves while the second chunk is on its way. -/
theorem stream_prefix_overlapping :
    let source : Source := { bytes := ⟨#[7, 0, 9, 4, 5]⟩, size := 5, limit := fun _ => some 1,
                             interrupted := [1, 4] }
    let middle : ByteRange := ⟨2, 3, by decide, by decide⟩
    let low : ByteRange := ⟨1, 2, by decide, by decide⟩
    let past : ByteRange := ⟨4, 5, by decide, by decide⟩
    let chunks := [middle, low].map (Chunk.of source)
    source.Steady ∧
      Stops (.ofSource source) [middle, low, past] 2
        (some (.sourceRead 4 "failed to fill whole buffer")) ∧
      (ofSource source).stream [middle, low, past] none =
        (chunks, some (.sourceRead 4 "failed to fill whole buffer")) ∧
      (∀ c ∈ chunks, c.Whole source) ∧
      ∃ s, (Stream.start (.ofSource source) [middle, low, past]).run
        [.read, .offer, .read, .receive, .drop, .offer] = some ([.of source middle], s) := by
  intro source middle low past chunks
  have hsteady : source.Steady := ⟨fun _ => nofun, fun _ => nofun⟩
  obtain ⟨⟨i, error, hstops⟩, hall⟩ :=
    stream_prefix (r := .ofSource source) hsteady [middle, low, past] (by decide)
  obtain ⟨-, hwhole, hruns, hnone, -⟩ := hall i error hstops
  have herror : ((ofSource source).stream [middle, low, past] none).2 =
      some (.sourceRead 4 "failed to fill whole buffer") := by decide +kernel
  have hlength : ((ofSource source).stream [middle, low, past] none).1.length = 2 := by
    decide +kernel
  have hleft : ∃ chunks s, (Stream.start (.ofSource source) [middle, low, past]).run
      [.read, .offer, .read, .receive, .drop, .offer] = some (chunks, s) ∧ chunks.length = 1 := by
    have hsome : (((Stream.start (.ofSource source) [middle, low, past]).run
      [.read, .offer, .read, .receive, .drop, .offer]).map (·.1.length)) = some 1 := by
      decide +kernel
    obtain ⟨⟨chunks, s⟩, hrun, hone⟩ := Option.map_eq_some_iff.mp hsome
    exact ⟨chunks, s, hrun, hone⟩
  rw [hnone] at herror hlength
  obtain rfl : i = 2 := by
    simp at hlength
    omega
  obtain rfl : error = _ := herror
  obtain ⟨chunks', s, hrun, hone⟩ := hleft
  obtain ⟨-, -, -, hserved⟩ := hruns _ _ _ hrun
  refine ⟨hsteady, hstops, hnone, hwhole, s, ?_⟩
  rw [hrun, hserved 1 (.inl hone)]
  rfl

/-- A range of all offsets but the first lies outside of a source of one byte.  A consumer that
waits for the end gets nothing, and is told of no error. -/
theorem stream_without_room :
    let source : Source := .ofBytes ⟨#[7]⟩
    let range : ByteRange := ⟨1, 2 ^ 64 - 1, by decide, by decide⟩
    source.Steady ∧ range.length? = some (2 ^ 64 - 1) ∧ source.bytes.size ≤ range.first ∧
      (ofSource source).stream [range] none = ([], none) := by
  intro source range
  exact ⟨Source.ofBytes_steady _, by decide, by decide, stream_none (.cramped (by decide))⟩

end Reader
end ImageUpload
