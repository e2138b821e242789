import ImageUpload.Proofs.Session.Step

/-
What is known of a session in each of its phases.

The order in which a session ends is in its phases alone: the queue stays open until the
producer has ended, the workers are gone and every failure is heard of before the
estimator stops, and from then on nothing changes that the verdict depends on.
-/

namespace ImageUpload
namespace Session

variable {σ : Type}

/-- The queue is open, and a request has been refused or not. -/
structure Open (s : Session σ) (cutShort : Bool) : Prop where
  closed : s.pool.closed = false
  cancelled : s.pool.cancelled = false
  cutShort : s.cutShort = cutShort

/-- The queue is closed, because the producer ended like this. -/
structure Closed (s : Session σ) (e : Option TransferError) : Prop where
  closed : s.pool.closed = true
  cancelled : s.pool.cancelled = e.isSome
  ended : s.stream.ended.isSome = true
  error : s.stream.error? = e
  slot : s.cutShort = false → s.stream.slot = none

/-- Nothing is left to do for the workers and the listener, and this is the last record. -/
structure Done (s : Session σ) (e : Option TransferError) (last : ProgressRecord) : Prop extends
    Closed s e where
  gone : s.pool.gone = true
  heard : s.heard = s.pool.failures.length
  last : last = s.lastRecord

/-- What is known in a phase. -/
def PhaseHolds (s : Session σ) : Phase → Prop
  | .streaming => s.Open false
  | .sending _ => s.Open false
  | .refused => s.Open true
  | .draining e => s.Closed e
  | .stopping e last => s.Done e last
  | .ended result => ∃ e last, s.Done e last ∧ s.estimator.records = [] ∧ result = s.verdict e last

/-- The session is where its phase says. -/
def Phased (s : Session σ) : Prop :=
  s.PhaseHolds s.phase

theorem phased_start (options : UploadOptions) (parallelism : Nat) (plan : Plan) (r : Reader)
    (store : σ) : (start options parallelism plan r store).Phased :=
  ⟨rfl, rfl, rfl⟩

variable {s s' : Session σ} {a : SessionAction} {J : Float → Prop}

theorem Phased.of_phase (h : s.Phased) {ph : Phase} (hphase : s.phase = ph) : s.PhaseHolds ph :=
  hphase ▸ h

theorem Phased.not_cutShort (h : s.Phased)
    (hphase : s.phase = .streaming ∨ ∃ c, s.phase = .sending c) : s.cutShort = false := by
  rcases hphase with hphase | ⟨c, hphase⟩
  · exact (h.of_phase hphase).cutShort
  · exact (h.of_phase hphase).cutShort

theorem Phased.keep (h : s.Phased) (hphase : s'.phase = s.phase)
    (hopen : ∀ b, s.Open b → s'.Open b) (hclosed : ∀ e, s.Closed e → s'.Closed e)
    (hdone : ∀ e last, s.Done e last → s'.Done e last ∧ s'.verdict e last = s.verdict e last ∧
      (s.estimator.records = [] → s'.estimator.records = [])) : s'.Phased := by
  unfold Phased at h ⊢
  rw [hphase]
  cases hph : s.phase with
  | streaming => rw [hph] at h; exact hopen _ h
  | sending c => rw [hph] at h; exact hopen _ h
  | refused => rw [hph] at h; exact hopen _ h
  | draining e => rw [hph] at h; exact hclosed _ h
  | stopping e last => rw [hph] at h; exact (hdone _ _ h).1
  | ended result =>
    rw [hph] at h
    obtain ⟨e, last, hd, hrecords, hresult⟩ := h
    obtain ⟨hd', hverdict, hrecords'⟩ := hdone e last hd
    exact ⟨e, last, hd', hrecords' hrecords, hresult.trans hverdict.symm⟩

/-- While the producer is at work, the queue is open, and nothing that is known then is
about the producer. -/
theorem Phased.of_stream (h : s.Phased) (hended : s.stream.ended = none) (stream : Stream) :
    ({ s with stream := stream } : Session σ).Phased := by
  have hclosed : ∀ e, ¬s.Closed e := fun e he => by
    have hsome := he.ended
    rw [hended] at hsome
    exact nomatch hsome
  exact h.keep rfl (fun _ ho => { ho with }) (fun e he => absurd he (hclosed e))
    fun e _ hd => absurd hd.toClosed (hclosed e)

variable [PageStore σ]

theorem phased_step (h : s.Phased) (hstep : Step J s a s') : s'.Phased := by
  cases hstep with
  | read range rest data reader hended hhand hremaining hread => exact h.of_stream hended _
  | misread range rest f reader hended hhand hremaining hread => exact h.of_stream hended _
  | offer c hended hhand hwanted hslot => exact h.of_stream hended _
  | withhold c hended hhand hwanted => exact h.of_stream hended _
  | close hended hhand hremaining => exact h.of_stream hended _
  | receive c hphase hwanted hslot =>
    have ho : s.Open false := h.of_phase hphase
    exact ⟨ho.closed, ho.cancelled, ho.cutShort⟩
  | send c pool hphase hpool =>
    have ho : s.Open false := h.of_phase hphase
    rw [Pool.send_eq hpool]
    exact ⟨ho.closed, ho.cancelled, ho.cutShort⟩
  | refuse c hphase hgone =>
    have ho : s.Open false := h.of_phase hphase
    exact ⟨ho.closed, ho.cancelled, rfl⟩
  | shut hready =>
    rcases hready with ⟨hphase, hready⟩ | ⟨hphase, hready⟩
    · have ho : s.Open false := h.of_phase hphase
      unfold Stream.exhausted at hready
      rw [Bool.and_eq_true, Option.isNone_iff_eq_none] at hready
      exact ⟨rfl, by simp [ho.cancelled], hready.1, rfl, fun _ => hready.2⟩
    · have ho : s.Open true := h.of_phase hphase
      refine ⟨rfl, by simp [ho.cancelled], hready, rfl, fun hcut => ?_⟩
      exact absurd (ho.cutShort.symm.trans hcut) nofun
  | move a pool ha hpool =>
    obtain ⟨hclosed, hcancelled, -⟩ := hpool.flags
    refine h.keep rfl (fun _ ho => ?_) (fun _ he => ?_) (fun _ _ hd => ?_)
    · exact ⟨hclosed.trans ho.closed, hcancelled.trans ho.cancelled, ho.cutShort⟩
    · exact { he with closed := hclosed.trans he.closed, cancelled := hcancelled.trans he.cancelled }
    · exact absurd (hpool.not_gone.symm.trans hd.gone) nofun
  | write i jitter tally job attempt result store pool hworker hjitter hwrite hpool =>
    obtain ⟨hclosed, hcancelled, -⟩ := Pool.flags_of_finish hpool
    refine h.keep rfl (fun _ ho => ?_) (fun _ he => ?_) (fun _ _ hd => ?_)
    · exact ⟨hclosed.trans ho.closed, hcancelled.trans ho.cancelled, ho.cutShort⟩
    · exact { he with closed := hclosed.trans he.closed, cancelled := hcancelled.trans he.cancelled }
    · exact nomatch Pool.gone_of_getElem? hd.gone hworker
  | hear f hf hrange =>
    refine h.keep rfl (fun _ ho => { ho with }) (fun _ he => { he with }) (fun _ _ hd => ?_)
    rw [hd.heard, List.getElem?_length] at hf
    exact nomatch hf
  | tell f x hf hrange =>
    refine h.keep rfl (fun _ ho => { ho with }) (fun _ he => { he with }) (fun _ _ hd => ?_)
    rw [hd.heard, List.getElem?_length] at hf
    exact nomatch hf
  | tick now hmeasured hstopping hended =>
    show PhaseHolds _ s.phase
    cases hphase : s.phase with
    | streaming => exact { h.of_phase hphase with }
    | sending c => exact { h.of_phase hphase with }
    | refused => exact { h.of_phase hphase with }
    | draining e => exact { h.of_phase hphase with }
    | stopping e last => exact absurd hphase (hstopping e last)
    | ended result => exact absurd hphase (hended result)
  | forward r rest hrecords =>
    refine h.keep rfl (fun _ ho => { ho with }) (fun _ he => { he with }) (fun _ _ hd => ?_)
    refine ⟨{ hd with }, rfl, fun hnil => ?_⟩
    rw [hrecords] at hnil
    exact nomatch hnil
  | consume e rest hwaiting =>
    exact h.keep rfl (fun _ ho => { ho with }) (fun _ he => { he with })
      (fun _ _ hd => ⟨{ hd with }, rfl, id⟩)
  | stop e hphase hgone hheard =>
    have hc : s.Closed e := h.of_phase hphase
    exact { hc with gone := hgone, heard := hheard, last := rfl }
  | conclude e last hphase hrecords =>
    have hd : s.Done e last := h.of_phase hphase
    exact ⟨e, last, { hd with }, hrecords, rfl⟩

end Session
end ImageUpload
