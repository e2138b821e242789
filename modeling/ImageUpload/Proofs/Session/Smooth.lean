import ImageUpload.Proofs.Session.Intact

/-
Sessions in which nothing fails but writes.

If the session keeps its workers and the source delivers what it is asked for, the pool is
never torn down.  So a session that has come to its end has settled a request for each range
of its plan, `Smooth.perm_settled`.
-/

namespace ImageUpload

theorem Reader.sweep_delivers {image : ByteArray} {ranges : List ByteRange} {r : Reader}
    (h : r.source.Delivers image) (hinside : ∀ range ∈ ranges, range.last < image.size) :
    r.sweep ranges = .finished := by
  induction ranges generalizing r with
  | nil => rfl
  | cons range rest ih =>
    obtain ⟨hrange, hrest⟩ := List.forall_mem_cons.mp hinside
    obtain ⟨r₁, hread⟩ := readRange_delivers h hrange
    have hsource := r.readRange_source range
    rw [hread] at hsource
    rw [sweep, hread]
    exact ih (hsource ▸ h) hrest

namespace Session

variable {σ : Type} [PageStore σ] {s s' : Session σ} {a : SessionAction} {r : Reader} {store₀ : σ}

/-- What is known of a session in which nothing fails but writes. -/
structure Smooth (r : Reader) (store₀ : σ) (s : Session σ) : Prop extends Intact r store₀ s where
  sweep : r.sweep s.plan.ranges = .finished

namespace Smooth

theorem ended (h : s.Smooth r store₀) {e : StreamEnd} (he : s.stream.ended = some e) :
    e = .finished := by
  have hsweep := h.invariant.delivery.sweep h.cutShort
  rw [h.sweep, he] at hsweep
  exact hsweep.symm

theorem error (h : s.Smooth r store₀) : s.stream.error? = none := by
  unfold Stream.error?
  cases he : s.stream.ended with
  | none => rfl
  | some e => rw [h.ended he]

theorem closed_none (h : s.Smooth r store₀) {e : Option TransferError} (hc : s.Closed e) :
    e = none :=
  hc.error.symm.trans h.error

theorem not_cancelled (h : s.Smooth r store₀) : s.pool.cancelled = false := by
  have hphased := h.invariant.phased
  have hclosed : ∀ {e}, s.Closed e → s.pool.cancelled = false := by
    intro e hc
    rw [hc.cancelled, h.closed_none hc]
    rfl
  unfold Phased at hphased
  cases hphase : s.phase with
  | streaming =>
    rw [hphase] at hphased
    exact hphased.cancelled
  | sending c =>
    rw [hphase] at hphased
    exact hphased.cancelled
  | refused =>
    rw [hphase] at hphased
    exact hphased.cancelled
  | draining e =>
    rw [hphase] at hphased
    exact hclosed hphased
  | stopping e last =>
    rw [hphase] at hphased
    exact hclosed hphased.toClosed
  | ended result =>
    rw [hphase] at hphased
    obtain ⟨e, last, hd, -⟩ := hphased
    exact hclosed hd.toClosed

/-- Without workers, a pool has been closed and has nothing left to do. -/
theorem drained (h : s.Smooth r store₀) (hgone : s.pool.gone = true) :
    s.pool.closed = true ∧ s.pool.queue = [] :=
  h.staffed.closed_of_gone hgone h.not_cancelled h.not_dead

end Smooth

theorem smooth_step (h : s.Smooth r store₀) (hstep : Step Jittered s a s') : s'.Smooth r store₀ := by
  obtain ⟨hplan, -⟩ := constants_step hstep
  exact ⟨intact_step h.toIntact hstep, hplan ▸ h.sweep⟩

theorem smooth_run {actions : List SessionAction} (h : s.Smooth r store₀)
    (hrun : s.run actions = some s') : s'.Smooth r store₀ :=
  run_induction (fun _ _ _ hstep hs => smooth_step hs hstep) (jittered_of_run hrun) hrun h

/-! ## The end -/

namespace Smooth

theorem dispatched (h : s.Smooth r store₀) {e : Option TransferError} (hc : s.Closed e)
    (hphase : s.phase.chunk = []) : s.dispatched = s.plan.ranges.length := by
  obtain ⟨f, hf⟩ := Option.isSome_iff_exists.mp hc.ended
  obtain ⟨hhand, hremaining⟩ := h.invariant.delivery.ended h.cutShort f hf
  have horder := h.invariant.delivery.order h.cutShort
  have hheld : s.held = [] := by
    unfold held
    rw [hphase, hc.slot h.cutShort, hhand]
    rfl
  rw [hheld, hremaining.mp (h.ended hf)] at horder
  have hle := List.drop_eq_nil_iff.mp horder.symm
  exact Nat.le_antisymm h.invariant.delivery.dispatched hle

/-- At its end a session has settled one request for each range of its plan. -/
theorem perm_settled (h : s.Smooth r store₀) {last : ProgressRecord} {e : Option TransferError}
    (hd : s.Done e last) (hphase : s.phase.chunk = []) {desks : List (Desk Chunk StorageError)}
    (haccounts : s.pool.Accounts Jittered (s.requests r) desks) :
    ((Desk.allSettled desks).map fun x => x.job.request).Perm
      (s.plan.ranges.map fun range => requestOf s.retry (.of r.source range)) := by
  have hjobs := haccounts.jobs_of_gone hd.gone
  rw [(h.drained hd.gone).2, List.nil_append] at hjobs
  have hsent : s.requests r =
      s.plan.ranges.map fun range => requestOf s.retry (.of r.source range) := by
    unfold requests sent
    rw [h.dispatched hd.toClosed hphase, List.take_length, List.map_map]
    rfl
  have hmap := hjobs.map Job.request
  rw [map_request_numbered, hsent, List.map_map] at hmap
  exact hmap

end Smooth
end Session
end ImageUpload
