import Mathlib.Data.List.Forall2
import ImageUpload.Proofs.Session.Delivery

/-
Writes, failures and the verdict of a session.

Each write is an attempt of the pool at one of the chunks that were sent, in the order in
which the attempts end, `Written`.  The store is what the writes have made of it,
`Replays`.  The ranges that failed are those whose failures the listener has heard of,
`Heard`, and the last event tells the verdict, `Concluded`.  `Invariant` is all that is
known of a session.
-/

namespace ImageUpload

/-- Writing these chunks one after another brings the store from one state to another. -/
inductive Replays {σ : Type} [PageStore σ] (store₀ : σ) : List WriteRecord → σ → Prop where
  | start : Replays store₀ [] store₀
  | write {writes : List WriteRecord} {store store' : σ} {c : Chunk}
    {result : Except WriteFault Unit} (h : Replays store₀ writes store)
    (hwrite : PageStore.write store c.range c.data = (result, store')) :
    Replays store₀ (writes ++ [⟨c, result⟩]) store'

namespace Pool

variable {ω ε : Type} {p p' : Pool ω ε}

theorem Moves.failures (h : p.Moves p') : ∃ new, p'.failures = p.failures ++ new := by
  cases h with
  | take i tally job rest hw hq hcancelled => exact ⟨[], (List.append_nil _).symm⟩
  | wake i tally job attempt e delay hw hcancelled => exact ⟨[], (List.append_nil _).symm⟩
  | abandon i tally job attempt e delay hw hcancelled => exact ⟨_, rfl⟩
  | leave i tally hw hidle => exact ⟨[], (List.append_nil _).symm⟩

theorem failures_of_finish {i : Nat} {o : Outcome ε} {jitter : Float}
    (hp : p.finish i o jitter = some p') : ∃ new, p'.failures = p.failures ++ new := by
  obtain ⟨tally, job, attempt, hw, hcases⟩ := finish_cases (J := fun _ => True) trivial hp
  rcases hcases with ⟨fate, -, rfl⟩ | ⟨e, delay, -, -, rfl⟩
  · exact ⟨_, rfl⟩
  · exact ⟨[], (List.append_nil _).symm⟩

end Pool

namespace Session

variable {σ : Type} {s s' : Session σ} {a : SessionAction} {r : Reader} {J : Float → Prop}

/-! ## What is known -/

/-- The requests that have been queued. -/
def requests (r : Reader) (s : Session σ) : List (Request Chunk StorageError) :=
  (s.sent r).map (requestOf s.retry)

/-- Each attempt that ended is a write of the chunk that was sent under its ticket. -/
def Written (r : Reader) (s : Session σ) : Prop :=
  List.Forall₂ (fun e w => (s.sent r)[e.1]? = some w.chunk ∧ e.2 = outcomeOf w.result)
    s.pool.ends s.writes

theorem getElem?_requests {ticket : Nat} {request : Request Chunk StorageError}
    (h : (s.requests r)[ticket]? = some request) :
    ∃ c, (s.sent r)[ticket]? = some c ∧ request = requestOf s.retry c := by
  unfold requests at h
  rw [List.getElem?_map] at h
  obtain ⟨c, hc, heq⟩ := Option.map_eq_some_iff.mp h
  exact ⟨c, hc, heq.symm⟩

/-- The ranges that failed are those of the failures that the listener has heard of. -/
structure Heard (s : Session σ) : Prop where
  le : s.heard ≤ s.pool.failures.length
  failed : s.failed = (s.pool.failures.take s.heard).filterMap s.failedRange?

theorem Heard.of_pool (h : s.Heard) {pool : Pool Chunk StorageError}
    (hpool : ∃ new, pool.failures = s.pool.failures ++ new) :
    s.heard ≤ pool.failures.length ∧
      s.failed = (pool.failures.take s.heard).filterMap s.failedRange? := by
  obtain ⟨new, hnew⟩ := hpool
  rw [hnew, List.length_append, List.take_append_of_le_length h.le]
  exact ⟨Nat.le_add_right_of_le h.le, h.failed⟩

/-- The last event tells the verdict, and there is none before the verdict is drawn. -/
def Concluded (s : Session σ) : Prop :=
  ∀ outcome bytes percent, .finished outcome bytes percent ∈ s.taken ++ s.waiting →
    ∃ e last, s.phase = .ended (s.verdict e last) ∧ outcome = s.lastOutcome e ∧
      bytes = s.bytesSent last ∧ percent = last.percent

theorem mem_enqueue {waiting : List UploadEvent} {e x : UploadEvent} (h : x ∈ enqueue waiting e) :
    x ∈ waiting ∨ x = e := by
  unfold enqueue at h
  split at h
  next _ =>
    rcases List.mem_append.mp h with h | h
    · exact .inl h
    · exact .inr (List.mem_singleton.mp h)
  next _ => exact .inl h

theorem Concluded.not_finished (h : s.Concluded) (hphase : ∀ result, s.phase ≠ .ended result)
    (outcome : SessionOutcome) (bytes : Nat) (percent : Float) :
    .finished outcome bytes percent ∉ s.taken ++ s.waiting := by
  intro hmem
  obtain ⟨e, last, hended, -⟩ := h outcome bytes percent hmem
  exact hphase _ hended

/-! ## Steps -/

variable [PageStore σ]

theorem accounts_step (h : ∃ desks, s.pool.Accounts J (s.requests r) desks)
    (hphased : s.Phased) (hdelivery : s.Delivery r) (hstep : Step J s a s') :
    ∃ desks, s'.pool.Accounts J (s'.requests r) desks := by
  obtain ⟨desks, h⟩ := h
  cases hstep with
  | send c pool hphase hpool =>
    obtain ⟨-, -, hsent⟩ := hdelivery.sent_of_send hphase (hphased.not_cutShort (.inr ⟨c, hphase⟩))
    refine ⟨desks, ?_⟩
    have hrequests : ((s.plan.ranges.take (s.dispatched + 1)).map (Chunk.of r.source)).map
        (requestOf s.retry) = s.requests r ++ [requestOf s.retry c] := by
      rw [hsent, List.map_append]
      rfl
    show pool.Accounts J (((s.plan.ranges.take (s.dispatched + 1)).map (Chunk.of r.source)).map
        (requestOf s.retry)) desks
    rw [hrequests]
    exact h.send hpool
  | move a pool ha hpool => exact h.move hpool
  | write i jitter tally job attempt result store pool hworker hjitter hwrite hpool =>
    exact h.finish hjitter hpool
  | shut hready =>
    refine ⟨desks, h.close.cancel fun hcancelled => ?_⟩
    show (s.pool.cancelled || s.stream.error?.isSome) = true
    have hc : s.pool.cancelled = true := hcancelled
    rw [hc]
    rfl
  | read | misread | offer | withhold | close | receive | refuse | hear | tell | tick | forward
  | consume | stop | conclude => exact ⟨desks, h⟩

theorem written_step (h : s.Written r)
    (haccounts : ∃ desks, s.pool.Accounts J (s.requests r) desks) (hphased : s.Phased)
    (hdelivery : s.Delivery r) (hstep : Step J s a s') : s'.Written r := by
  cases hstep with
  | send c pool hphase hpool =>
    obtain ⟨-, -, hsent⟩ := hdelivery.sent_of_send hphase (hphased.not_cutShort (.inr ⟨c, hphase⟩))
    have hends : pool.ends = s.pool.ends := by
      rw [Pool.send_eq hpool]
      rfl
    show List.Forall₂ (fun e w =>
      ((s.plan.ranges.take (s.dispatched + 1)).map (Chunk.of r.source))[e.1]? = some w.chunk ∧
        e.2 = outcomeOf w.result) pool.ends s.writes
    rw [hends, hsent]
    refine h.imp fun e w hew => ⟨?_, hew.2⟩
    rw [List.getElem?_append_left (List.getElem?_eq_some_iff.mp hew.1).1]
    exact hew.1
  | move a pool ha hpool =>
    obtain ⟨-, -, hends⟩ := hpool.flags
    unfold Written
    rw [hends]
    exact h
  | write i jitter tally job attempt result store pool hworker hjitter hwrite hpool =>
    obtain ⟨desks, haccounts⟩ := haccounts
    obtain ⟨-, -, _, job', _, hworker', hends⟩ := Pool.flags_of_finish hpool
    have hjob : job' = job := by
      rw [hworker] at hworker'
      injection hworker' with hw
      injection hw with _ hjob _
      exact hjob.symm
    obtain ⟨c, hc, hrequest⟩ :=
      getElem?_requests (haccounts.sent_of_held hworker (List.mem_singleton.mpr rfl))
    unfold Written
    rw [hends, hjob]
    refine List.rel_append h (.cons ⟨?_, rfl⟩ .nil)
    rw [hrequest]
    exact hc
  | read | misread | offer | withhold | close | receive | refuse | shut | hear | tell | tick
  | forward | consume | stop | conclude => exact h

theorem replays_step {store₀ : σ} (h : Replays store₀ s.writes s.store) (hstep : Step J s a s') :
    Replays store₀ s'.writes s'.store := by
  cases hstep with
  | write i jitter tally job attempt result store pool hworker hjitter hwrite hpool =>
    exact h.write hwrite
  | read | misread | offer | withhold | close | receive | send | refuse | shut | move | hear
  | tell | tick | forward | consume | stop | conclude => exact h

theorem heard_step (h : s.Heard) (hstep : Step J s a s') : s'.Heard := by
  cases hstep with
  | send c pool hphase hpool =>
    have hkept : pool.failures = s.pool.failures ++ [] := by
      rw [Pool.send_eq hpool, List.append_nil]
    obtain ⟨hle, hfailed⟩ := h.of_pool ⟨[], hkept⟩
    exact ⟨hle, hfailed⟩
  | move a pool ha hpool =>
    obtain ⟨hle, hfailed⟩ := h.of_pool hpool.failures
    exact ⟨hle, hfailed⟩
  | write i jitter tally job attempt result store pool hworker hjitter hwrite hpool =>
    obtain ⟨hle, hfailed⟩ := h.of_pool (Pool.failures_of_finish hpool)
    exact ⟨hle, hfailed⟩
  | hear f hf hrange =>
    obtain ⟨hlt, heq⟩ := List.getElem?_eq_some_iff.mp hf
    refine ⟨hlt, ?_⟩
    show s.failed = (s.pool.failures.take (s.heard + 1)).filterMap s.failedRange?
    rw [List.take_succ_eq_append_getElem hlt, List.filterMap_append, heq, ← h.failed,
      List.filterMap_cons_none hrange, List.filterMap_nil, List.append_nil]
  | tell f x hf hrange =>
    obtain ⟨hlt, heq⟩ := List.getElem?_eq_some_iff.mp hf
    refine ⟨hlt, ?_⟩
    show s.failed ++ [x] = (s.pool.failures.take (s.heard + 1)).filterMap s.failedRange?
    rw [List.take_succ_eq_append_getElem hlt, List.filterMap_append, heq, ← h.failed,
      List.filterMap_cons_some hrange, List.filterMap_nil]
  | read | misread | offer | withhold | close | receive | refuse | shut | tick | forward
  | consume | stop | conclude => exact ⟨h.le, h.failed⟩

/-- Once the verdict is drawn, nothing happens but that the consumer takes events. -/
theorem ended_step (h : s.Phased) {result : Except UploadError SessionResult}
    (hphase : s.phase = .ended result) (hstep : Step J s a s') :
    ∃ e rest, a = .consume ∧ s.waiting = e :: rest ∧
      s' = { s with waiting := rest, taken := s.taken ++ [e] } := by
  obtain ⟨e, last, hd, hrecords, -⟩ := h.of_phase hphase
  have hended : s.stream.ended ≠ none := Option.isSome_iff_ne_none.mp hd.ended
  cases hstep with
  | read range rest data reader hnone hhand hremaining hread => exact absurd hnone hended
  | misread range rest f reader hnone hhand hremaining hread => exact absurd hnone hended
  | offer c hnone hhand hwanted hslot => exact absurd hnone hended
  | withhold c hnone hhand hwanted => exact absurd hnone hended
  | close hnone hhand hremaining => exact absurd hnone hended
  | receive c hph hwanted hslot => exact nomatch hphase.symm.trans hph
  | send c pool hph hpool => exact nomatch hphase.symm.trans hph
  | refuse c hph hgone => exact nomatch hphase.symm.trans hph
  | shut hready =>
    rcases hready with ⟨hph, -⟩ | ⟨hph, -⟩
    · exact nomatch hphase.symm.trans hph
    · exact nomatch hphase.symm.trans hph
  | move a pool ha hpool => exact absurd (hpool.not_gone.symm.trans hd.gone) nofun
  | write i jitter tally job attempt result store pool hworker hjitter hwrite hpool =>
    exact nomatch Pool.gone_of_getElem? hd.gone hworker
  | hear f hf hrange =>
    rw [hd.heard, List.getElem?_length] at hf
    exact nomatch hf
  | tell f x hf hrange =>
    rw [hd.heard, List.getElem?_length] at hf
    exact nomatch hf
  | tick now hmeasured hstopping hno => exact absurd hphase (hno result)
  | forward record rest hr =>
    rw [hrecords] at hr
    exact nomatch hr
  | consume e rest hwaiting => exact ⟨e, rest, rfl, hwaiting, rfl⟩
  | stop e hph hgone hheard => exact nomatch hphase.symm.trans hph
  | conclude e last hph hr => exact nomatch hphase.symm.trans hph

/-- After the verdict the consumer takes what waits for it, and nothing else changes. -/
theorem ended_run {actions : List SessionAction} (h : s.Phased)
    {result : Except UploadError SessionResult} (hphase : s.phase = .ended result)
    (hrun : s.run actions = some s') :
    (∀ a ∈ actions, a = .consume) ∧ s'.phase = .ended result ∧ s'.failed = s.failed ∧
      s'.taken ++ s'.waiting = s.taken ++ s.waiting := by
  induction actions generalizing s with
  | nil =>
    injection hrun with hrun
    subst hrun
    exact ⟨nofun, hphase, rfl, rfl⟩
  | cons a actions ih =>
    obtain ⟨s₁, hact, hrun⟩ := Option.bind_eq_some_iff.mp hrun
    have hstep : Step (fun _ => True) s a s₁ := step_of_act (draws_true a) hact
    have hphased := phased_step h hstep
    obtain ⟨e, rest, rfl, hwaiting, rfl⟩ := ended_step h hphase hstep
    obtain ⟨hconsume, hend, hfailed, hevents⟩ := ih hphased hphase hrun
    refine ⟨List.forall_mem_cons.mpr ⟨rfl, hconsume⟩, hend, hfailed, hevents.trans ?_⟩
    show s.taken ++ [e] ++ rest = s.taken ++ s.waiting
    rw [hwaiting, List.append_assoc]
    rfl

theorem concluded_step (h : s.Concluded) (hphased : s.Phased) (hstep : Step J s a s') :
    s'.Concluded := by
  by_cases hended : ∃ result, s.phase = .ended result
  · obtain ⟨result, hphase⟩ := hended
    obtain ⟨e, rest, -, hwaiting, rfl⟩ := ended_step hphased hphase hstep
    intro outcome bytes percent hmem
    refine h outcome bytes percent ?_
    change _ ∈ s.taken ++ [e] ++ rest at hmem
    rw [List.append_assoc] at hmem
    rw [hwaiting]
    exact hmem
  · have hno : ∀ result, s.phase ≠ .ended result := fun result hphase => hended ⟨result, hphase⟩
    have hnone := h.not_finished hno
    have hkeep : ∀ {outcome bytes percent} {e : UploadEvent} {waiting : List UploadEvent},
        (∀ x, x ∈ waiting → x ∈ s.waiting ∨ x = e) →
        UploadEvent.finished outcome bytes percent ≠ e →
        .finished outcome bytes percent ∉ s.taken ++ waiting := by
      intro outcome bytes percent e waiting hwaiting hne hmem
      rcases List.mem_append.mp hmem with hmem | hmem
      · exact hnone _ _ _ (List.mem_append_left _ hmem)
      · rcases hwaiting _ hmem with hmem | heq
        · exact hnone _ _ _ (List.mem_append_right _ hmem)
        · exact hne heq
    cases hstep with
    | tell f x hf hrange =>
      exact fun outcome bytes percent hmem =>
        absurd hmem (hkeep (fun _ hx => mem_enqueue hx) nofun)
    | forward record rest hr =>
      exact fun outcome bytes percent hmem =>
        absurd hmem (hkeep (fun _ hx => mem_enqueue hx) nofun)
    | consume e rest hwaiting =>
      intro outcome bytes percent hmem
      change _ ∈ s.taken ++ [e] ++ rest at hmem
      rw [List.append_assoc] at hmem
      exact absurd (hwaiting ▸ hmem) (hnone outcome bytes percent)
    | conclude e last hphase hrecords =>
      intro outcome bytes percent hmem
      refine ⟨e, last, rfl, ?_⟩
      rcases List.mem_append.mp hmem with hmem | hmem
      · exact absurd (List.mem_append_left _ hmem) (hnone outcome bytes percent)
      · rcases mem_enqueue hmem with hmem | heq
        · exact absurd (List.mem_append_right _ hmem) (hnone outcome bytes percent)
        · injection heq with houtcome hbytes hpercent
          exact ⟨houtcome, hbytes, hpercent⟩
    | read | misread | offer | withhold | close | receive | send | refuse | shut | move | write
    | hear | tick | stop =>
      exact fun outcome bytes percent hmem => absurd hmem (hnone outcome bytes percent)

/-! ## All together -/

/-- What is known of a session that began with this reader and this store. -/
structure Invariant (J : Float → Prop) (r : Reader) (store₀ : σ) (s : Session σ) : Prop where
  phased : s.Phased
  delivery : s.Delivery r
  accounts : ∃ desks, s.pool.Accounts J (s.requests r) desks
  written : s.Written r
  replays : Replays store₀ s.writes s.store
  heard : s.Heard
  concluded : s.Concluded

theorem invariant_start (options : UploadOptions) (parallelism : Nat) (plan : Plan) (r : Reader)
    (store : σ) : (start options parallelism plan r store).Invariant J r store :=
  { phased := phased_start options parallelism plan r store
    delivery := delivery_start options parallelism plan r store
    accounts := ⟨_, Pool.accounts_start parallelism options.queueCapacity⟩
    written := .nil
    replays := .start
    heard := ⟨Nat.le_refl 0, rfl⟩
    concluded := by
      intro outcome bytes percent hmem
      change _ ∈ enqueue [] _ at hmem
      rcases mem_enqueue hmem with hmem | heq
      · exact nomatch hmem
      · exact nomatch heq }

theorem invariant_step {store₀ : σ} (h : s.Invariant J r store₀) (hstep : Step J s a s') :
    s'.Invariant J r store₀ :=
  { phased := phased_step h.phased hstep
    delivery := delivery_step h.delivery h.phased hstep
    accounts := accounts_step h.accounts h.phased h.delivery hstep
    written := written_step h.written h.accounts h.phased h.delivery hstep
    replays := replays_step h.replays hstep
    heard := heard_step h.heard hstep
    concluded := concluded_step h.concluded h.phased hstep }

theorem invariant_run {options : UploadOptions} {parallelism : Nat} {plan : Plan} {store : σ}
    {actions : List SessionAction} (hJ : ∀ a ∈ actions, Draws J a)
    (h : (start options parallelism plan r store).run actions = some s) :
    s.Invariant J r store :=
  run_induction (fun _ _ _ hstep hs => invariant_step hs hstep) hJ h
    (invariant_start options parallelism plan r store)

theorem constants_step (hstep : Step J s a s') : s'.plan = s.plan ∧ s'.retry = s.retry := by
  cases hstep <;> exact ⟨rfl, rfl⟩

theorem constants_of_run {actions : List SessionAction} (hJ : ∀ a ∈ actions, Draws J a)
    (h : s.run actions = some s') : s'.plan = s.plan ∧ s'.retry = s.retry := by
  refine run_induction (P := fun s' => s'.plan = s.plan ∧ s'.retry = s.retry)
    (fun s₁ a s₂ hstep hs => ?_) hJ h ⟨rfl, rfl⟩
  obtain ⟨hplan, hretry⟩ := constants_step hstep
  exact ⟨hplan.trans hs.1, hretry.trans hs.2⟩

theorem constants_run {options : UploadOptions} {parallelism : Nat} {plan : Plan} {store : σ}
    {actions : List SessionAction} (hJ : ∀ a ∈ actions, Draws J a)
    (h : (start options parallelism plan r store).run actions = some s) :
    s.plan = plan ∧ s.retry = options.retry :=
  constants_of_run hJ h

end Session
end ImageUpload
