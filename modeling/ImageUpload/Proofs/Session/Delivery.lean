import ImageUpload.Proofs.Plan
import ImageUpload.Proofs.Session.Phase

/-
What the producer and the dispatcher have made of the plan.

As long as no request has been refused, the ranges of the plan are those whose requests
are queued, those whose chunks are on their way, and those that remain to be read, in this
order, `Delivery.order`.  Reading the ranges of a plan one after another ends in one way,
`Reader.sweep`, however the reading is spread over the session, `Delivery.sweep`.
-/

namespace ImageUpload

/-- How a producer ends that reads these ranges one after another. -/
def Reader.sweep : List ByteRange → Reader → StreamEnd
  | [], _ => .finished
  | range :: rest, r =>
    match r.readRange range with
    | (.ok _, r) => sweep rest r
    | (.error f, _) => .ofFault f

theorem StreamEnd.ofFault_ne_finished (f : SourceFault) : ofFault f ≠ .finished := by
  cases f with
  | failed e => exact nofun
  | panicked => exact nofun

theorem Reader.sweep_steady {ranges : List ByteRange} {r : Reader} (h : r.source.Steady)
    (hroom : ∀ range ∈ ranges, r.source.room range.length = true) : r.sweep ranges ≠ .panicked := by
  induction ranges generalizing r with
  | nil => exact nofun
  | cons range rest ih =>
    obtain ⟨hfirst, hrest⟩ := List.forall_mem_cons.mp hroom
    have hsource := r.readRange_source range
    rw [sweep]
    split
    next data r₁ hread =>
      rw [hread] at hsource
      exact ih (hsource ▸ h) (hsource ▸ hrest)
    next f r₁ hread =>
      cases f with
      | failed e => exact nofun
      | panicked => exact absurd hread (readRange_steady h hfirst r₁)

/-- The chunk that the dispatcher has in hand. -/
def Phase.chunk : Phase → List Chunk
  | .sending c => [c]
  | _ => []

namespace Session

variable {σ : Type}

/-- The chunks that have been read and not yet queued, in order. -/
def held (s : Session σ) : List Chunk :=
  s.phase.chunk ++ s.stream.slot.toList ++ s.stream.hand.toList

/-- The chunks whose requests have been queued. -/
def sent (r : Reader) (s : Session σ) : List Chunk :=
  (s.plan.ranges.take s.dispatched).map (Chunk.of r.source)

/-- The chunks are sent in the order of the plan. -/
theorem getElem?_sent {r : Reader} {s : Session σ} {ticket : Nat} {c : Chunk}
    (h : (s.sent r)[ticket]? = some c) :
    ∃ range, s.plan.ranges[ticket]? = some range ∧ ticket < s.dispatched ∧
      c = .of r.source range := by
  unfold sent at h
  rw [List.getElem?_map] at h
  obtain ⟨range, hrange, rfl⟩ := Option.map_eq_some_iff.mp h
  have hlt : ticket < s.dispatched := by
    have hlength := (List.getElem?_eq_some_iff.mp hrange).1
    rw [List.length_take] at hlength
    omega
  rw [List.getElem?_take_of_lt hlt] at hrange
  exact ⟨range, hrange, hlt, rfl⟩

structure Delivery (r : Reader) (s : Session σ) : Prop where
  source : s.stream.reader.source = r.source
  whole : ∀ c ∈ s.sent r ++ s.held, c.Whole r.source
  dispatched : s.dispatched ≤ s.plan.ranges.length
  wanted : s.stream.wanted = !s.cutShort
  order : s.cutShort = false →
    s.held.map Chunk.range ++ s.stream.remaining = s.plan.ranges.drop s.dispatched
  sweep : s.cutShort = false →
    r.sweep s.plan.ranges = s.stream.ended.getD (s.stream.reader.sweep s.stream.remaining)
  ended : s.cutShort = false → ∀ e, s.stream.ended = some e →
    s.stream.hand = none ∧ (e = .finished ↔ s.stream.remaining = [])

theorem delivery_start (options : UploadOptions) (parallelism : Nat) (plan : Plan) (r : Reader)
    (store : σ) : (start options parallelism plan r store).Delivery r :=
  { source := rfl
    whole := nofun
    dispatched := Nat.zero_le _
    wanted := rfl
    order := fun _ => rfl
    sweep := fun _ => rfl
    ended := fun _ _ => nofun }

variable {s s' : Session σ} {a : SessionAction} {r : Reader} {J : Float → Prop}

/-- The account of the chunks is about nothing but these parts. -/
theorem Delivery.congr (h : s.Delivery r) (hstream : s'.stream = s.stream)
    (hplan : s'.plan = s.plan) (hdispatched : s'.dispatched = s.dispatched)
    (hcut : s'.cutShort = s.cutShort) (hchunk : s'.phase.chunk = s.phase.chunk) :
    s'.Delivery r := by
  have hheld : s'.held = s.held := by
    unfold held
    rw [hstream, hchunk]
  have hsent : s'.sent r = s.sent r := by
    unfold sent
    rw [hplan, hdispatched]
  constructor
  · rw [hstream]
    exact h.source
  · rw [hsent, hheld]
    exact h.whole
  · rw [hplan, hdispatched]
    exact h.dispatched
  · rw [hstream, hcut]
    exact h.wanted
  · rw [hheld, hstream, hplan, hdispatched, hcut]
    exact h.order
  · rw [hstream, hplan, hcut]
    exact h.sweep
  · rw [hstream, hcut]
    exact h.ended

theorem Delivery.chunk_whole (h : s.Delivery r) {c : Chunk} (hc : c ∈ s.held) : c.Whole r.source :=
  h.whole c (List.mem_append_right _ hc)

/-- What one step of the producer does to the chunks. -/
theorem Delivery.of_stream (h : s.Delivery r) {stream : Stream}
    (hsource : stream.reader.source = r.source) (hwanted : stream.wanted = s.stream.wanted)
    (hwhole : ∀ c ∈ ({ s with stream := stream } : Session σ).held, c.Whole r.source)
    (horder : s.cutShort = false →
      ({ s with stream := stream } : Session σ).held.map Chunk.range ++ stream.remaining =
        s.held.map Chunk.range ++ s.stream.remaining)
    (hsweep : s.cutShort = false → stream.ended.getD (stream.reader.sweep stream.remaining) =
      s.stream.ended.getD (s.stream.reader.sweep s.stream.remaining))
    (hended : s.cutShort = false → ∀ e, stream.ended = some e →
      stream.hand = none ∧ (e = .finished ↔ stream.remaining = [])) :
    ({ s with stream := stream } : Session σ).Delivery r :=
  { source := hsource
    whole := by
      intro c hc
      rcases List.mem_append.mp hc with hc | hc
      · exact h.whole c (List.mem_append_left _ hc)
      · exact hwhole c hc
    dispatched := h.dispatched
    wanted := hwanted.trans h.wanted
    order := fun hcut => (horder hcut).trans (h.order hcut)
    sweep := fun hcut => (h.sweep hcut).trans (hsweep hcut).symm
    ended := hended }

theorem Delivery.read (h : s.Delivery r) {range : ByteRange} {rest : List ByteRange}
    {data : ByteArray} {reader : Reader} (hended : s.stream.ended = none)
    (hhand : s.stream.hand = none) (hremaining : s.stream.remaining = range :: rest)
    (hread : s.stream.reader.readRange range = (.ok data, reader)) :
    ({ s with stream := { s.stream with
      reader := reader, remaining := rest, hand := some ⟨range, data⟩ } } : Session σ).Delivery r := by
  obtain ⟨hdata, hsize⟩ := Reader.readRange_ok hread
  have hsource := s.stream.reader.readRange_source range
  rw [hread] at hsource
  have hheld : s.held = s.phase.chunk ++ s.stream.slot.toList := by
    unfold held
    rw [hhand]
    exact List.append_nil _
  refine h.of_stream (hsource.trans h.source) rfl ?_ (fun _ => ?_) (fun _ => ?_) (fun _ e he => ?_)
  · intro c hc
    rcases List.mem_append.mp hc with hc | hc
    · exact h.chunk_whole (hheld ▸ hc)
    · rw [List.mem_singleton.mp hc]
      refine ⟨?_, hsize⟩
      rw [hdata, h.source]
      rfl
  · rw [hheld, hremaining]
    show (s.phase.chunk ++ s.stream.slot.toList ++ [Chunk.mk range data]).map Chunk.range ++ rest = _
    rw [List.map_append, List.append_assoc]
    rfl
  · rw [hended, hremaining]
    show reader.sweep rest = s.stream.reader.sweep (range :: rest)
    rw [Reader.sweep, hread]
  · rw [hended] at he
    exact nomatch he

theorem Delivery.misread (h : s.Delivery r) {range : ByteRange} {rest : List ByteRange}
    {f : SourceFault} {reader : Reader} (hended : s.stream.ended = none)
    (hhand : s.stream.hand = none) (hremaining : s.stream.remaining = range :: rest)
    (hread : s.stream.reader.readRange range = (.error f, reader)) :
    ({ s with stream := { s.stream with
      reader := reader, ended := some (.ofFault f) } } : Session σ).Delivery r := by
  have hsource := s.stream.reader.readRange_source range
  rw [hread] at hsource
  refine h.of_stream (hsource.trans h.source) rfl (fun c hc => h.chunk_whole hc) (fun _ => rfl)
    (fun _ => ?_) (fun _ e he => ⟨hhand, ?_⟩)
  · rw [hended, hremaining]
    show StreamEnd.ofFault f = s.stream.reader.sweep (range :: rest)
    rw [Reader.sweep, hread]
  · injection he with he
    rw [hremaining, ← he]
    exact ⟨fun hf => absurd hf (StreamEnd.ofFault_ne_finished f), nofun⟩

theorem Delivery.offer (h : s.Delivery r) {c : Chunk} (hended : s.stream.ended = none)
    (hhand : s.stream.hand = some c) (hslot : s.stream.slot = none) :
    ({ s with stream := { s.stream with hand := none, slot := some c } } : Session σ).Delivery r := by
  have hheld : s.held = s.phase.chunk ++ [c] := by
    unfold held
    rw [hhand, hslot, Option.toList_none, List.append_nil]
    rfl
  have hheld' : ({ s with stream := { s.stream with hand := none, slot := some c } } :
      Session σ).held = s.held := by
    rw [hheld]
    exact List.append_nil _
  refine h.of_stream h.source rfl ?_ (fun _ => ?_) (fun _ => rfl) (fun _ e he => ?_)
  · rw [hheld']
    exact fun c hc => h.chunk_whole hc
  · rw [hheld']
  · rw [hended] at he
    exact nomatch he

theorem Delivery.receive (h : s.Delivery r) {c : Chunk} (hphase : s.phase = .streaming)
    (hslot : s.stream.slot = some c) :
    ({ s with stream := { s.stream with slot := none }, phase := .sending c } :
      Session σ).Delivery r := by
  have hheld : ({ s with stream := { s.stream with slot := none }, phase := .sending c } :
      Session σ).held = s.held := by
    unfold held
    rw [hphase, hslot]
    rfl
  exact
    { source := h.source
      whole := by rw [hheld]; exact h.whole
      dispatched := h.dispatched
      wanted := h.wanted
      order := by rw [hheld]; exact h.order
      sweep := h.sweep
      ended := h.ended }

theorem held_of_sending {c : Chunk} (hphase : s.phase = .sending c) :
    s.held = c :: (s.stream.slot.toList ++ s.stream.hand.toList) := by
  unfold held
  rw [hphase]
  rfl

/-- The chunk in the hand of the dispatcher is the next one of the plan. -/
theorem Delivery.sent_of_send (h : s.Delivery r) {c : Chunk} (hphase : s.phase = .sending c)
    (hcut : s.cutShort = false) :
    s.dispatched < s.plan.ranges.length ∧
      (s.stream.slot.toList ++ s.stream.hand.toList).map Chunk.range ++ s.stream.remaining =
        s.plan.ranges.drop (s.dispatched + 1) ∧
      (s.plan.ranges.take (s.dispatched + 1)).map (Chunk.of r.source) = s.sent r ++ [c] := by
  have horder := h.order hcut
  rw [held_of_sending hphase, List.map_cons, List.cons_append] at horder
  have hlt : s.dispatched < s.plan.ranges.length := by
    have hlength := congrArg List.length horder
    rw [List.length_cons, List.length_drop] at hlength
    omega
  rw [List.drop_eq_getElem_cons hlt] at horder
  injection horder with hrange hrest
  have hc : c.Whole r.source := h.chunk_whole (held_of_sending hphase ▸ List.mem_cons_self)
  refine ⟨hlt, hrest, ?_⟩
  rw [List.take_succ_eq_append_getElem hlt, List.map_append, ← hrange, hc.1]
  rfl

theorem Delivery.send (h : s.Delivery r) {c : Chunk} (hphase : s.phase = .sending c)
    (hcut : s.cutShort = false) (pool : Pool Chunk StorageError) :
    ({ s with pool := pool, dispatched := s.dispatched + 1, phase := .streaming } :
      Session σ).Delivery r := by
  obtain ⟨hlt, hrest, hsent⟩ := h.sent_of_send hphase hcut
  exact
    { source := h.source
      whole := by
        intro c' hc'
        refine h.whole c' ?_
        change c' ∈ (s.plan.ranges.take (s.dispatched + 1)).map (Chunk.of r.source) ++
          (s.stream.slot.toList ++ s.stream.hand.toList) at hc'
        rw [hsent, List.append_assoc] at hc'
        rw [held_of_sending hphase]
        exact hc'
      dispatched := hlt
      wanted := h.wanted
      order := fun _ => hrest
      sweep := h.sweep
      ended := h.ended }

variable [PageStore σ]

theorem delivery_step (h : s.Delivery r) (hphased : s.Phased) (hstep : Step J s a s') :
    s'.Delivery r := by
  cases hstep with
  | read range rest data reader hended hhand hremaining hread =>
    exact h.read hended hhand hremaining hread
  | misread range rest f reader hended hhand hremaining hread =>
    exact h.misread hended hhand hremaining hread
  | offer c hended hhand hwanted hslot => exact h.offer hended hhand hslot
  | withhold c hended hhand hwanted =>
    have hno : s.cutShort ≠ false := by
      intro hcut
      have hw := h.wanted
      rw [hwanted, hcut] at hw
      exact nomatch hw
    refine h.of_stream h.source rfl (fun c' hc' => ?_) (fun hf => absurd hf hno)
      (fun hf => absurd hf hno) (fun hf => absurd hf hno)
    rcases List.mem_append.mp hc' with hc' | hc'
    · exact h.chunk_whole (List.mem_append_left _ hc')
    · exact nomatch hc'
  | close hended hhand hremaining =>
    refine h.of_stream h.source rfl (fun c hc => h.chunk_whole hc) (fun _ => rfl) (fun _ => ?_)
      (fun _ e he => ⟨hhand, ?_⟩)
    · rw [hended, hremaining]
      rfl
    · injection he with he
      exact ⟨fun _ => hremaining, fun _ => he.symm⟩
  | receive c hphase hwanted hslot => exact h.receive hphase hslot
  | send c pool hphase hpool =>
    exact h.send hphase (hphased.not_cutShort (.inr ⟨c, hphase⟩)) pool
  | refuse c hphase hgone =>
    have hno : (true : Bool) ≠ false := nofun
    exact
      { source := h.source
        whole := by
          intro c' hc'
          rcases List.mem_append.mp hc' with hc' | hc'
          · exact h.whole c' (List.mem_append_left _ hc')
          · exact h.chunk_whole (List.mem_append_right _ hc')
        dispatched := h.dispatched
        wanted := rfl
        order := fun hf => absurd hf hno
        sweep := fun hf => absurd hf hno
        ended := fun hf => absurd hf hno }
  | shut hready =>
    refine h.congr rfl rfl rfl rfl ?_
    rcases hready with ⟨hphase, -⟩ | ⟨hphase, -⟩
    · rw [hphase]
      rfl
    · rw [hphase]
      rfl
  | move a pool ha hpool => exact h.congr rfl rfl rfl rfl rfl
  | write i jitter tally job attempt result store pool hworker hjitter hwrite hpool =>
    exact h.congr rfl rfl rfl rfl rfl
  | hear f hf hrange => exact h.congr rfl rfl rfl rfl rfl
  | tell f x hf hrange => exact h.congr rfl rfl rfl rfl rfl
  | tick now hmeasured hstopping hended => exact h.congr rfl rfl rfl rfl rfl
  | forward r rest hrecords => exact h.congr rfl rfl rfl rfl rfl
  | consume e rest hwaiting => exact h.congr rfl rfl rfl rfl rfl
  | stop e hphase hgone hheard => exact h.congr rfl rfl rfl rfl (by rw [hphase]; rfl)
  | conclude e last hphase hrecords => exact h.congr rfl rfl rfl rfl (by rw [hphase]; rfl)

end Session
end ImageUpload
