import ImageUpload.Proofs.Pool.Staff
import ImageUpload.Proofs.Session.Script

/-
Sessions that keep their workers.

If every wait can be held, no worker dies, whatever becomes of the source and of the writes.
So workers are there as long as the queue is open, and no request is ever refused.
-/

namespace ImageUpload
namespace Session

variable {σ : Type} [PageStore σ] {s s' : Session σ} {a : SessionAction} {r : Reader} {store₀ : σ}

theorem staffed_step {J : Float → Prop} (h : s.pool.Staffed) (hstep : Step J s a s') :
    s'.pool.Staffed := by
  cases hstep with
  | send c pool hphase hpool => exact h.send hpool
  | shut hready =>
    refine h.close fun hcancelled => ?_
    rw [hcancelled]
    rfl
  | move a pool ha hpool => exact h.move hpool
  | write i jitter tally job attempt result store pool hworker hjitter hwrite hpool =>
    exact h.finish hpool
  | read | misread | offer | withhold | close | receive | refuse | hear | tell | tick | forward
  | consume | stop | conclude => exact h

/-- What is known of a session that keeps its workers. -/
structure Intact (r : Reader) (store₀ : σ) (s : Session σ) : Prop where
  invariant : s.Invariant Jittered r store₀
  staffed : s.pool.Staffed
  waits : s.retry.Waits
  nodup : s.plan.ranges.Nodup
  cutShort : s.cutShort = false

theorem intact_start {options : UploadOptions} {parallelism : Nat} {plan : Plan} {r : Reader}
    {store : σ} (hwaits : options.retry.Waits) (hnodup : plan.ranges.Nodup) :
    (start options parallelism plan r store).Intact r store :=
  { invariant := invariant_start options parallelism plan r store
    staffed := Pool.staffed_start parallelism options.queueCapacity
    waits := hwaits
    nodup := hnodup
    cutShort := rfl }

namespace Intact

theorem kept (h : s.Intact r store₀) {desks : List (Desk Chunk StorageError)}
    (haccounts : s.pool.Accounts Jittered (s.requests r) desks) :
    ∀ d ∈ desks, ∀ x ∈ d.settled, x.fate ≠ .lost :=
  h.invariant.kept h.waits haccounts

theorem not_dead (h : s.Intact r store₀) : .dead ∉ s.pool.workers := by
  obtain ⟨desks, haccounts⟩ := h.invariant.accounts
  exact haccounts.not_dead (h.kept haccounts)

/-- Workers leave only after the queue is closed or the pool is torn down. -/
theorem not_gone (h : s.Intact r store₀) {b : Bool} (hopen : s.Open b) : s.pool.gone = false := by
  refine Bool.eq_false_iff.mpr fun hgone => ?_
  have hclosed := (h.staffed.closed_of_gone hgone hopen.cancelled h.not_dead).1
  exact nomatch hopen.closed.symm.trans hclosed

theorem not_refused (h : s.Intact r store₀) : s.phase ≠ .refused := by
  intro hphase
  have hopen : s.Open true := h.invariant.phased.of_phase hphase
  exact nomatch h.cutShort.symm.trans hopen.cutShort

end Intact

theorem intact_step (h : s.Intact r store₀) (hstep : Step Jittered s a s') : s'.Intact r store₀ := by
  have hinvariant := invariant_step h.invariant hstep
  have hstaffed := staffed_step h.staffed hstep
  obtain ⟨hplan, hretry⟩ := constants_step hstep
  have hcut : s'.cutShort = false := by
    cases hstep with
    | refuse c hphase hgone =>
      have hopen : s.Open false := h.invariant.phased.of_phase hphase
      exact nomatch (h.not_gone hopen).symm.trans hgone
    | read | misread | offer | withhold | close | receive | send | shut | move | write | hear
    | tell | tick | forward | consume | stop | conclude => exact h.cutShort
  exact
    { invariant := hinvariant
      staffed := hstaffed
      waits := hretry ▸ h.waits
      nodup := hplan ▸ h.nodup
      cutShort := hcut }

theorem intact_run {actions : List SessionAction} (h : s.Intact r store₀)
    (hrun : s.run actions = some s') : s'.Intact r store₀ :=
  run_induction (fun _ _ _ hstep hs => intact_step hs hstep) (jittered_of_run hrun) hrun h

end Session
end ImageUpload
