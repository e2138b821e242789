import ImageUpload.Proofs.Pool.Report
import ImageUpload.Proofs.Stream
import ImageUpload.Session.Basic

/-
What one action of a session does.

`Step` has one case for each thing that can happen to a session, with all that is known
before it and the session as it is afterwards.  An invariant is proved by cases on it,
`step_of_act`, and then holds after every run, `run_induction`.
-/

namespace ImageUpload

/-- What a worker does apart from ending an attempt. -/
def SessionAction.isMove : SessionAction → Bool
  | take _ => true
  | wake _ => true
  | abandon _ => true
  | leave _ => true
  | _ => false

namespace Session

variable {σ : Type} [PageStore σ] {J : Float → Prop}

/-- The dispatcher waits for nothing more but the end of the producer. -/
def atEnd (s : Session σ) : Prop :=
  (s.phase = .streaming ∧ s.stream.exhausted = true) ∨
    (s.phase = .refused ∧ s.stream.ended.isSome = true)

/-- What the listener makes of a failure. -/
def failedRange? (s : Session σ) (f : Failure StorageError) : Option FailedRange :=
  (s.rangeOf? f.id).map fun range => ⟨range, f.attempts, f.error.message StorageError.message⟩

/-- The result of a session whose producer ended like this. -/
def verdict (s : Session σ) (e : Option TransferError) (last : ProgressRecord) :
    Except UploadError SessionResult :=
  match e with
  | some e => .error (.sourceRead e)
  | none => .ok ⟨s.succeeded, s.failed, s.bytesSent last, last⟩

/-- The outcome that the last event tells. -/
def lastOutcome (s : Session σ) (e : Option TransferError) : SessionOutcome :=
  match e with
  | some _ => .sourceFailed
  | none => s.outcome

/-- What an action does. -/
inductive Step (J : Float → Prop) (s : Session σ) : SessionAction → Session σ → Prop where
  | read (range : ByteRange) (rest : List ByteRange) (data : ByteArray) (reader : Reader)
    (hended : s.stream.ended = none) (hhand : s.stream.hand = none)
    (hremaining : s.stream.remaining = range :: rest)
    (hread : s.stream.reader.readRange range = (.ok data, reader)) :
    Step J s .read { s with stream := { s.stream with
      reader := reader, remaining := rest, hand := some ⟨range, data⟩ } }
  | misread (range : ByteRange) (rest : List ByteRange) (f : SourceFault) (reader : Reader)
    (hended : s.stream.ended = none) (hhand : s.stream.hand = none)
    (hremaining : s.stream.remaining = range :: rest)
    (hread : s.stream.reader.readRange range = (.error f, reader)) :
    Step J s .read { s with stream := { s.stream with reader := reader, ended := some (.ofFault f) } }
  | offer (c : Chunk) (hended : s.stream.ended = none) (hhand : s.stream.hand = some c)
    (hwanted : s.stream.wanted = true) (hslot : s.stream.slot = none) :
    Step J s .offer { s with stream := { s.stream with hand := none, slot := some c } }
  | withhold (c : Chunk) (hended : s.stream.ended = none) (hhand : s.stream.hand = some c)
    (hwanted : s.stream.wanted = false) :
    Step J s .offer { s with stream := { s.stream with hand := none, ended := some .finished } }
  | close (hended : s.stream.ended = none) (hhand : s.stream.hand = none)
    (hremaining : s.stream.remaining = []) :
    Step J s .close { s with stream := { s.stream with ended := some .finished } }
  | receive (c : Chunk) (hphase : s.phase = .streaming) (hwanted : s.stream.wanted = true)
    (hslot : s.stream.slot = some c) :
    Step J s .receive { s with stream := { s.stream with slot := none }, phase := .sending c }
  | send (c : Chunk) (pool : Pool Chunk StorageError) (hphase : s.phase = .sending c)
    (hpool : s.pool.send (requestOf s.retry c) = some pool) :
    Step J s .send { s with pool := pool, dispatched := s.dispatched + 1, phase := .streaming }
  | refuse (c : Chunk) (hphase : s.phase = .sending c) (hgone : s.pool.gone = true) :
    Step J s .refuse { s with stream := s.stream.drop, cutShort := true, phase := .refused }
  | shut (hready : s.atEnd) :
    Step J s .shut { s with
      pool := { s.pool with
        closed := true, cancelled := s.pool.cancelled || s.stream.error?.isSome }
      phase := .draining s.stream.error? }
  | move (a : SessionAction) (pool : Pool Chunk StorageError) (ha : a.isMove = true)
    (hpool : s.pool.Moves pool) : Step J s a { s with pool := pool }
  | write (i : Nat) (jitter : Float) (tally : Tally) (job : Job Chunk StorageError) (attempt : Nat)
    (result : Except WriteFault Unit) (store : σ) (pool : Pool Chunk StorageError)
    (hworker : s.pool.workers[i]? = some (.running tally job attempt)) (hjitter : J jitter)
    (hwrite : PageStore.write s.store job.request.work.range job.request.work.data = (result, store))
    (hpool : s.pool.finish i (outcomeOf result) jitter = some pool) :
    Step J s (.write i jitter) { s with
      pool := pool
      store := store
      writes := s.writes ++ [⟨job.request.work, result⟩]
      estimator := if result.isOk then s.estimator.report job.request.work.range.length
        else s.estimator }
  | hear (f : Failure StorageError) (hf : s.pool.failures[s.heard]? = some f)
    (hrange : s.failedRange? f = none) : Step J s .hear { s with heard := s.heard + 1 }
  | tell (f : Failure StorageError) (x : FailedRange) (hf : s.pool.failures[s.heard]? = some f)
    (hrange : s.failedRange? f = some x) :
    Step J s .hear { s with
      heard := s.heard + 1
      failed := s.failed ++ [x]
      waiting := enqueue s.waiting (.rangeFailed x) }
  | tick (now : Nat) (hmeasured : s.measured = true) (hstopping : ∀ e last, s.phase ≠ .stopping e last)
    (hended : ∀ result, s.phase ≠ .ended result) :
    Step J s (.tick now) { s with estimator := s.estimator.tick now }
  | forward (r : ProgressRecord) (rest : List ProgressRecord)
    (hrecords : s.estimator.records = r :: rest) :
    Step J s .forward { s with
      estimator := { s.estimator with records := rest }
      waiting := enqueue s.waiting (.progress r) }
  | consume (e : UploadEvent) (rest : List UploadEvent) (hwaiting : s.waiting = e :: rest) :
    Step J s .consume { s with waiting := rest, taken := s.taken ++ [e] }
  | stop (e : Option TransferError) (hphase : s.phase = .draining e) (hgone : s.pool.gone = true)
    (hheard : s.heard = s.pool.failures.length) :
    Step J s .stop { s with phase := .stopping e s.lastRecord }
  | conclude (e : Option TransferError) (last : ProgressRecord) (hphase : s.phase = .stopping e last)
    (hrecords : s.estimator.records = []) :
    Step J s .conclude { s with
      waiting := enqueue s.waiting (.finished (s.lastOutcome e) (s.bytesSent last) last.percent)
      phase := .ended (s.verdict e last) }

/-- The jitter of an action is one of these. -/
def Draws (J : Float → Prop) : SessionAction → Prop
  | .write _ jitter => J jitter
  | _ => True

theorem draws_true (a : SessionAction) : Draws (fun _ => True) a := by
  cases a <;> trivial

section

variable {s s' : Session σ}

theorem step_of_read (h : s.produce .read = some s') : Step J s .read s' := by
  obtain ⟨⟨c, stream⟩, hmove, rfl⟩ := Option.map_eq_some_iff.mp h
  cases Stream.step_of_step hmove with
  | read range rest data reader hended hhand hremaining hread =>
    exact .read range rest data reader hended hhand hremaining hread
  | misread range rest f reader hended hhand hremaining hread =>
    exact .misread range rest f reader hended hhand hremaining hread

theorem step_of_offer (h : s.produce .offer = some s') : Step J s .offer s' := by
  obtain ⟨⟨c, stream⟩, hmove, rfl⟩ := Option.map_eq_some_iff.mp h
  cases Stream.step_of_step hmove with
  | offer c hended hhand hwanted hslot => exact .offer c hended hhand hwanted hslot
  | withhold c hended hhand hwanted => exact .withhold c hended hhand hwanted

theorem step_of_close (h : s.produce .close = some s') : Step J s .close s' := by
  obtain ⟨⟨c, stream⟩, hmove, rfl⟩ := Option.map_eq_some_iff.mp h
  cases Stream.step_of_step hmove with
  | close hended hhand hremaining => exact .close hended hhand hremaining

theorem step_of_receive (h : s.receive = some s') : Step J s .receive s' := by
  unfold receive at h
  split at h
  next hphase =>
    obtain ⟨⟨c, stream⟩, hreceive, rfl⟩ := Option.map_eq_some_iff.mp h
    cases Stream.step_of_receive hreceive with
    | receive c hwanted hslot => exact .receive c hphase hwanted hslot
  next _ => exact nomatch h

theorem step_of_send (h : s.send = some s') : Step J s .send s' := by
  unfold send at h
  split at h
  next c hphase =>
    obtain ⟨pool, hpool, hs'⟩ := Option.map_eq_some_iff.mp h
    subst hs'
    exact .send c pool hphase hpool
  next _ => exact nomatch h

theorem step_of_refuse (h : s.refuse = some s') : Step J s .refuse s' := by
  unfold refuse at h
  split at h
  next c hphase =>
    split at h
    next hgone =>
      injection h with h
      subst h
      exact .refuse c hphase hgone
    next _ => exact nomatch h
  next _ => exact nomatch h

theorem step_of_shut (h : s.shut = some s') : Step J s .shut s' := by
  simp only [shut] at h
  split at h
  next hphase =>
    split at h
    next hready =>
      injection h with h
      subst h
      exact .shut (.inl ⟨hphase, hready⟩)
    next _ => exact nomatch h
  next hphase =>
    split at h
    next hready =>
      injection h with h
      subst h
      exact .shut (.inr ⟨hphase, hready⟩)
    next _ => exact nomatch h
  next _ =>
    rw [if_neg Bool.false_ne_true] at h
    exact nomatch h

theorem step_of_move {a : SessionAction} {b : PoolAction Chunk StorageError} (ha : a.isMove = true)
    (hb : b.isMove = true) (h : s.withPool (s.pool.act b) = some s') : Step J s a s' := by
  obtain ⟨pool, hpool, hs'⟩ := Option.map_eq_some_iff.mp h
  subst hs'
  exact .move a pool ha (Pool.moves_of_act hb hpool)

theorem step_of_write {i : Nat} {jitter : Float} (hJ : J jitter) (h : s.write i jitter = some s') :
    Step J s (.write i jitter) s' := by
  unfold write at h
  split at h
  next tally job attempt hworker =>
    obtain ⟨pool, hpool, hs'⟩ := Option.map_eq_some_iff.mp h
    subst hs'
    exact .write i jitter tally job attempt _ _ pool hworker hJ rfl hpool
  next _ => exact nomatch h

theorem step_of_hear (h : s.hear = some s') : Step J s .hear s' := by
  obtain ⟨f, hf, hs'⟩ := Option.map_eq_some_iff.mp h
  simp only at hs'
  split at hs'
  next hrange =>
    subst hs'
    refine .hear f hf ?_
    unfold failedRange?
    exact Option.map_eq_none_iff.mpr hrange
  next range hrange =>
    subst hs'
    refine .tell f _ hf ?_
    unfold failedRange?
    exact Option.map_eq_some_iff.mpr ⟨range, hrange, rfl⟩

theorem step_of_tick {now : Nat} (h : s.tick now = some s') : Step J s (.tick now) s' := by
  unfold tick at h
  split at h
  next _ => exact nomatch h
  next _ => exact nomatch h
  next hstopping hended =>
    split at h
    next hmeasured =>
      injection h with h
      subst h
      exact .tick now hmeasured hstopping hended
    next _ => exact nomatch h

theorem step_of_forward (h : s.forward = some s') : Step J s .forward s' := by
  obtain ⟨⟨r, estimator⟩, hr, hs'⟩ := Option.map_eq_some_iff.mp h
  unfold Estimator.receive at hr
  split at hr
  next _ => exact nomatch hr
  next r' rest hrecords =>
    injection hr with hr
    injection hr with hrr hestimator
    subst hrr
    subst hestimator
    subst hs'
    exact .forward r' rest hrecords

theorem step_of_consume (h : s.consume = some s') : Step J s .consume s' := by
  unfold consume at h
  split at h
  next _ => exact nomatch h
  next e rest hwaiting =>
    injection h with h
    subst h
    exact .consume e rest hwaiting

theorem step_of_stop (h : s.stop = some s') : Step J s .stop s' := by
  unfold stop at h
  split at h
  next e hphase =>
    split at h
    next hdone =>
      injection h with h
      subst h
      exact .stop e hphase hdone.1 hdone.2
    next _ => exact nomatch h
  next _ => exact nomatch h

theorem step_of_conclude (h : s.conclude = some s') : Step J s .conclude s' := by
  simp only [conclude] at h
  split at h
  next e last hphase =>
    split at h
    next hrecords =>
      have hnil := List.isEmpty_iff.mp hrecords
      cases e with
      | none =>
        injection h with h
        subst h
        exact .conclude none last hphase hnil
      | some e =>
        injection h with h
        subst h
        exact .conclude (some e) last hphase hnil
    next _ => exact nomatch h
  next _ => exact nomatch h

theorem step_of_act {a : SessionAction} (hJ : Draws J a) (h : s.act a = some s') :
    Step J s a s' := by
  cases a with
  | read => exact step_of_read h
  | offer => exact step_of_offer h
  | close => exact step_of_close h
  | receive => exact step_of_receive h
  | send => exact step_of_send h
  | refuse => exact step_of_refuse h
  | shut => exact step_of_shut h
  | take i => exact step_of_move (b := .take i) rfl rfl h
  | write i jitter => exact step_of_write hJ h
  | wake i => exact step_of_move (b := .wake i) rfl rfl h
  | abandon i => exact step_of_move (b := .abandon i) rfl rfl h
  | leave i => exact step_of_move (b := .leave i) rfl rfl h
  | hear => exact step_of_hear h
  | tick now => exact step_of_tick h
  | forward => exact step_of_forward h
  | consume => exact step_of_consume h
  | stop => exact step_of_stop h
  | conclude => exact step_of_conclude h

/-- What every step keeps holds after every run. -/
theorem run_induction {P : Session σ → Prop} {actions : List SessionAction}
    (hstep : ∀ s a s', Step J s a s' → P s → P s') (hJ : ∀ a ∈ actions, Draws J a)
    (h : s.run actions = some s') (hs : P s) : P s' := by
  induction actions generalizing s with
  | nil =>
    injection h with h
    exact h ▸ hs
  | cons a rest ih =>
    obtain ⟨ha, hrest⟩ := List.forall_mem_cons.mp hJ
    obtain ⟨s₁, h₁, h⟩ := Option.bind_eq_some_iff.mp h
    exact ih hrest h (hstep s a s₁ (step_of_act ha h₁) hs)

end
end Session
end ImageUpload
