import ImageUpload.Proofs.Session.Drive
import ImageUpload.Proofs.Session.Smooth
import ImageUpload.Proofs.Session.Work

/-
Sessions come to their end.

In a session that keeps its workers there is always something to do before the end, and the
schedule finds it, `Intact.exists_next`.  If no range is tried more often than `k` says, less
is left with each action, so the schedule takes the session to its end, `Intact.follow_ended`,
and within its limit.
-/

namespace ImageUpload
namespace Session

variable {σ : Type} {s : Session σ}

theorem result?_of_phase {result : Except UploadError SessionResult}
    (hphase : s.phase = .ended result) : s.result? = some result := by
  unfold result?
  rw [hphase]

theorem phase_of_result? {result : Except UploadError SessionResult}
    (h : s.result? = some result) : s.phase = .ended result := by
  unfold result? at h
  split at h
  next outcome hphase =>
    injection h with h
    rw [hphase, h]
  next _ => exact nomatch h

/-- If no worker can do anything, none is left, or all that are left wait for requests. -/
theorem rest_of_poolAction? (hnone : s.poolAction? = none) :
    s.pool.gone = true ∨ s.pool.queue = [] ∧ s.pool.closed = false := by
  cases hgone : s.pool.gone with
  | true => exact .inl rfl
  | false =>
    obtain ⟨w, hmem, hleft⟩ := List.all_eq_false.mp hgone
    obtain ⟨i, hw⟩ := List.mem_iff_getElem?.mp hmem
    have hi := (List.getElem?_eq_some_iff.mp hw).1
    have hidle : s.workerAction? i = none :=
      List.findSome?_eq_none_iff.mp hnone i (List.mem_range.mpr hi)
    unfold workerAction? at hidle
    rw [hw] at hidle
    cases w with
    | running tally job attempt => exact nomatch hidle
    | waiting tally job attempt e delay => exact nomatch hidle
    | left tally => exact absurd rfl hleft
    | dead => exact absurd rfl hleft
    | idle tally =>
      simp only at hidle
      split at hidle
      next _ => exact nomatch hidle
      next _ =>
        split at hidle
        next hempty =>
          split at hidle
          next _ => exact nomatch hidle
          next hclosed =>
            exact .inr ⟨List.isEmpty_iff.mp hempty, Bool.eq_false_iff.mpr hclosed⟩
        next _ => exact nomatch hidle

variable [PageStore σ] {r : Reader} {store₀ : σ} {a : SessionAction}

/-! ## What can happen -/

/-- The action can happen now, and it is not a tick. -/
def Enabled (s : Session σ) (a : SessionAction) : Prop :=
  (s.act a).isSome = true ∧ ∀ now, a ≠ .tick now

theorem enabled_leave {i : Nat} {tally : Tally} (hw : s.pool.workers[i]? = some (.idle tally))
    (hidle : (s.pool.cancelled || (s.pool.closed && s.pool.queue.isEmpty)) = true) :
    (s.act (.leave i)).isSome = true := by
  show (s.withPool (s.pool.leave i)).isSome = true
  simp only [Pool.leave, hw, hidle, if_true]
  rfl

theorem enabled_worker {i : Nat} (ha : s.workerAction? i = some a) : s.Enabled a := by
  unfold workerAction? at ha
  split at ha
  next tally job attempt hw =>
    injection ha with ha
    subst ha
    obtain ⟨pool, hpool⟩ := Pool.finish_isSome hw
      (outcomeOf (PageStore.write s.store job.request.work.range job.request.work.data).1)
      jittered_plain
    refine ⟨?_, nofun⟩
    show (s.write i plainJitter).isSome = true
    unfold write
    rw [hw]
    simp only
    rw [hpool]
    rfl
  next tally job attempt e delay hw =>
    injection ha with ha
    subst ha
    by_cases hcancelled : s.pool.cancelled = true
    · rw [if_pos hcancelled]
      refine ⟨?_, nofun⟩
      show (s.withPool (s.pool.abandon i)).isSome = true
      simp only [Pool.abandon, hw, hcancelled, if_true]
      rfl
    · rw [if_neg hcancelled]
      refine ⟨?_, nofun⟩
      show (s.withPool (s.pool.wake i)).isSome = true
      simp only [Pool.wake, hw, if_neg hcancelled]
      rfl
  next tally hw =>
    by_cases hcancelled : s.pool.cancelled = true
    · rw [if_pos hcancelled] at ha
      injection ha with ha
      subst ha
      exact ⟨enabled_leave hw (by rw [hcancelled]; rfl), nofun⟩
    · rw [if_neg hcancelled] at ha
      split at ha
      next hempty =>
        split at ha
        next hclosed =>
          injection ha with ha
          subst ha
          exact ⟨enabled_leave hw (by rw [hclosed, hempty, Bool.and_self, Bool.or_true]), nofun⟩
        next _ => exact nomatch ha
      next hqueue =>
        injection ha with ha
        subst ha
        cases hq : s.pool.queue with
        | nil =>
          rw [hq] at hqueue
          exact absurd rfl hqueue
        | cons job rest =>
          refine ⟨?_, nofun⟩
          show (s.withPool (s.pool.take i)).isSome = true
          simp only [Pool.take, hw, hq, if_neg hcancelled]
          rfl
  next _ => exact nomatch ha

theorem enabled_listener {watched : Bool} (ha : s.listenerAction? watched = some a) :
    s.Enabled a := by
  unfold listenerAction? at ha
  split at ha
  next hlt =>
    injection ha with ha
    subst ha
    refine ⟨?_, nofun⟩
    show s.hear.isSome = true
    unfold hear
    rw [List.getElem?_eq_getElem hlt]
    rfl
  next _ =>
    split at ha
    next hrecords =>
      injection ha with ha
      subst ha
      cases hr : s.estimator.records with
      | nil =>
        rw [hr] at hrecords
        exact nomatch hrecords
      | cons record rest =>
        refine ⟨?_, nofun⟩
        show s.forward.isSome = true
        unfold forward Estimator.receive
        rw [hr]
        rfl
    next _ =>
      split at ha
      next hwatched =>
        injection ha with ha
        subst ha
        cases hw : s.waiting with
        | nil =>
          rw [hw, Bool.and_eq_true] at hwatched
          exact nomatch hwatched.2
        | cons e rest =>
          refine ⟨?_, nofun⟩
          show s.consume.isSome = true
          unfold consume
          rw [hw]
          rfl
      next _ => exact nomatch ha

/-- With nothing to hear and nothing to pass on, everything has been heard of. -/
theorem Intact.silent (h : s.Intact r store₀) {watched : Bool}
    (hnone : s.listenerAction? watched = none) :
    s.heard = s.pool.failures.length ∧ s.estimator.records = [] := by
  unfold listenerAction? at hnone
  split at hnone
  next _ => exact nomatch hnone
  next hheard =>
    split at hnone
    next _ => exact nomatch hnone
    next hrecords =>
      refine ⟨Nat.le_antisymm h.invariant.heard.le (Nat.not_lt.mp hheard), ?_⟩
      rw [Bool.not_eq_true', Bool.not_eq_false] at hrecords
      exact List.isEmpty_iff.mp hrecords

theorem Intact.enabled_producer (h : s.Intact r store₀) (hended : s.stream.ended = none)
    (hslot : s.stream.slot = none) : s.Enabled s.producerAction := by
  have hwanted : s.stream.wanted = true := by
    rw [h.invariant.delivery.wanted, h.cutShort]
    rfl
  unfold producerAction
  split
  next hhand =>
    obtain ⟨c, hc⟩ := Option.isSome_iff_exists.mp hhand
    refine ⟨?_, nofun⟩
    show (s.produce .offer).isSome = true
    unfold produce Stream.step Stream.offer
    simp only [hended, hc, hwanted, hslot]
    rfl
  next hhand =>
    rw [Bool.not_eq_true, Option.isSome_eq_false_iff, Option.isNone_iff_eq_none] at hhand
    split
    next hempty =>
      refine ⟨?_, nofun⟩
      show (s.produce .close).isSome = true
      unfold produce Stream.step Stream.close
      simp only [hended, hhand, List.isEmpty_iff.mp hempty]
      rfl
    next hempty =>
      refine ⟨?_, nofun⟩
      show (s.produce .read).isSome = true
      unfold produce Stream.step Stream.read
      cases hremaining : s.stream.remaining with
      | nil =>
        rw [hremaining] at hempty
        exact absurd rfl hempty
      | cons range rest =>
        simp only [hended, hhand]
        rcases hread : s.stream.reader.readRange range with ⟨data | f, reader⟩
        · cases data with
          | failed e => rfl
          | panicked => rfl
        · rfl

/-- A dispatcher that waits for chunks has one to take, or no more to wait for, or waits for
the producer. -/
theorem Intact.enabled_streaming (h : s.Intact r store₀) (hphase : s.phase = .streaming) :
    ∃ a, s.dispatcherAction? = some a ∧ s.Enabled a := by
  unfold dispatcherAction?
  simp only [hphase]
  split
  next hslot =>
    obtain ⟨c, hc⟩ := Option.isSome_iff_exists.mp hslot
    have hwanted : s.stream.wanted = true := by
      rw [h.invariant.delivery.wanted, h.cutShort]
      rfl
    refine ⟨_, rfl, ?_, by simp⟩
    show s.receive.isSome = true
    unfold receive Stream.receive
    simp only [hphase, hwanted, hc]
    rfl
  next hslot =>
    rw [Option.not_isSome_iff_eq_none] at hslot
    split
    next hended =>
      refine ⟨_, rfl, ?_, by simp⟩
      show s.shut.isSome = true
      have hexhausted : s.stream.exhausted = true := by
        unfold Stream.exhausted
        rw [hended, hslot]
        rfl
      simp only [shut, hphase, hexhausted]
      rfl
    next hended =>
      rw [Option.not_isSome_iff_eq_none] at hended
      exact ⟨_, rfl, h.enabled_producer hended hslot⟩

/-- Once the queue is empty there is room in it. -/
theorem Intact.enabled_sending (h : s.Intact r store₀) {c : Chunk} (hphase : s.phase = .sending c)
    (hpool : s.poolAction? = none) : ∃ a, s.dispatcherAction? = some a ∧ s.Enabled a := by
  have hphased := h.invariant.phased
  unfold Phased at hphased
  rw [hphase] at hphased
  have hgone := h.not_gone hphased
  have hqueue : s.pool.queue = [] := by
    rcases rest_of_poolAction? hpool with hgone' | ⟨hqueue, -⟩
    · exact absurd (hgone.symm.trans hgone') Bool.false_ne_true
    · exact hqueue
  have hroom : (s.pool.closed || s.pool.gone || decide (s.pool.capacity ≤ s.pool.queue.length)) =
      false := by
    have hcapacity := h.staffed.capacity
    rw [hphased.closed, hgone, hqueue]
    exact decide_eq_false (Nat.not_le.mpr hcapacity)
  refine ⟨.send, ?_, ?_, by simp⟩
  · unfold dispatcherAction?
    simp only [hphase]
    rw [hgone]
    rfl
  · show s.send.isSome = true
    unfold send Pool.send
    simp only [hphase, hroom]
    rfl

/-- With nothing to do for the workers and the listener, there is something to do for the
dispatcher, or for the producer that it waits for. -/
theorem Intact.enabled_dispatcher (h : s.Intact r store₀) {watched : Bool}
    (hpool : s.poolAction? = none) (hlistener : s.listenerAction? watched = none)
    (hphase : ∀ result, s.phase ≠ .ended result) :
    ∃ a, s.dispatcherAction? = some a ∧ s.Enabled a := by
  obtain ⟨hheard, hrecords⟩ := h.silent hlistener
  cases hph : s.phase with
  | streaming => exact h.enabled_streaming hph
  | sending c => exact h.enabled_sending hph hpool
  | refused => exact absurd hph h.not_refused
  | draining e =>
    have hphased := h.invariant.phased
    unfold Phased at hphased
    rw [hph] at hphased
    have hgone : s.pool.gone = true := by
      rcases rest_of_poolAction? hpool with hgone | ⟨-, hopen⟩
      · exact hgone
      · exact absurd (hopen.symm.trans hphased.closed) Bool.false_ne_true
    refine ⟨.stop, ?_, ?_, by simp⟩
    · unfold dispatcherAction?
      simp only [hph]
    · show s.stop.isSome = true
      unfold stop
      simp only [hph]
      rw [if_pos ⟨hgone, hheard⟩]
      rfl
  | stopping e last =>
    refine ⟨.conclude, ?_, ?_, by simp⟩
    · unfold dispatcherAction?
      simp only [hph]
    · show s.conclude.isSome = true
      simp only [conclude, hph, hrecords, List.isEmpty_nil]
      cases e with
      | none => rfl
      | some e => rfl
  | ended result => exact absurd hph (hphase result)

/-- Before its end there is always something that a session does next. -/
theorem Intact.exists_next (h : s.Intact r store₀) (watched : Bool)
    (hphase : ∀ result, s.phase ≠ .ended result) :
    ∃ a, s.nextAction? watched = some a ∧ s.Enabled a := by
  unfold nextAction?
  cases hpool : s.poolAction? with
  | some a =>
    obtain ⟨i, -, ha⟩ := List.exists_of_findSome?_eq_some hpool
    exact ⟨a, rfl, enabled_worker ha⟩
  | none =>
    cases hlistener : s.listenerAction? watched with
    | some a => exact ⟨a, rfl, enabled_listener hlistener⟩
    | none => exact h.enabled_dispatcher hpool hlistener hphase

/-! ## The schedule -/

variable {script : WriteScript} {k : ByteRange → Nat}

theorem Intact.follow_ended {watched : Bool} {n : Nat} (h : s.Intact r store₀)
    (hbounded : ∀ actions s', s.run actions = some s' → s'.Bounded k) (hn : s.work k ≤ n) :
    ∃ result, (follow watched n s).result? = some result := by
  induction n generalizing s with
  | zero =>
    have hphase : s.phase.work k = 0 := by
      unfold work at hn
      omega
    cases hph : s.phase with
    | ended result => exact ⟨result, result?_of_phase hph⟩
    | streaming | sending | refused | draining | stopping =>
      rw [hph] at hphase
      exact nomatch hphase
  | succ n ih =>
    by_cases hended : ∃ result, s.phase = .ended result
    · obtain ⟨result, hph⟩ := hended
      obtain ⟨actions, hactions⟩ := follow_run watched (n + 1) s
      exact ⟨result, result?_of_phase (ended_run h.invariant.phased hph hactions).2.1⟩
    · obtain ⟨a, ha, hact, htick⟩ := h.exists_next watched fun result hph => hended ⟨result, hph⟩
      obtain ⟨s', hs'⟩ := Option.isSome_iff_exists.mp hact
      have hstep : Step Jittered s a s' := step_of_act (jittered_of_act hs') hs'
      have hless := work_step hstep h.invariant.heard (hbounded [] s rfl) htick
      rw [follow, ha, Option.bind_some, hs']
      refine ih (intact_step h hstep) (fun actions s'' hrun => ?_) (by omega)
      exact hbounded (a :: actions) s'' ((run_cons_of_act hs' actions).trans hrun)

/-- Wherever a session is, it can be brought to its end. -/
theorem Intact.exists_end (h : s.Intact r store₀)
    (hbounded : ∀ actions s', s.run actions = some s' → s'.Bounded k) :
    ∃ actions s' result, s.run actions = some s' ∧ s'.result? = some result := by
  have hended : ∃ result, (follow true (s.work k) s).result? = some result :=
    h.follow_ended hbounded (Nat.le_refl _)
  obtain ⟨result, hresult⟩ := hended
  obtain ⟨actions, hactions⟩ := follow_run true (s.work k) s
  exact ⟨actions, _, result, hactions, hresult⟩

/-- The schedule has actions enough to take every session to its end. -/
theorem Intact.complete_ended {options : UploadOptions} {parallelism : Nat} {plan : Plan} {store : σ}
    (watched : Bool) (h : (start options parallelism plan r store).Intact r store₀)
    (hbounded : ∀ actions s', (start options parallelism plan r store).run actions = some s' →
      s'.Bounded k)
    (hlimit : ∀ range ∈ plan.ranges, k range ≤ attemptLimit options.retry) :
    ∃ result, (complete watched (start options parallelism plan r store)).result? = some result := by
  have hwork : (start options parallelism plan r store).work k + 2 ≤
      (start options parallelism plan r store).actionLimit := work_start_le hlimit
  unfold complete
  cases htick : (start options parallelism plan r store).tick 0 with
  | none =>
    rw [Option.getD_none]
    exact h.follow_ended hbounded (by omega)
  | some s' =>
    have hact : (start options parallelism plan r store).act (.tick 0) = some s' := htick
    have hstep : Step Jittered _ _ s' := step_of_act (jittered_of_act hact) hact
    have hintact := intact_step h hstep
    have hbounded' : ∀ actions s'', s'.run actions = some s'' → s''.Bounded k := by
      intro actions s'' hrun
      exact hbounded (.tick 0 :: actions) s'' ((run_cons_of_act hact actions).trans hrun)
    cases hstep with
    | move a pool ha hpool => exact nomatch ha
    | tick now hmeasured hstopping hended =>
      rw [Option.getD_some]
      exact hintact.follow_ended hbounded' (Nat.le_trans (work_tick_le _ 0) hwork)

/-! ## Bounds -/

/-- A running attempt is one at a range of the plan, and every attempt before it called for
another one. -/
theorem Intact.running (h : s.Intact r store₀) {i : Nat} {tally : Tally}
    {job : Job Chunk StorageError} {attempt : Nat}
    (hw : s.pool.workers[i]? = some (.running tally job attempt)) :
    ∃ range, s.plan.ranges[job.ticket]? = some range ∧
      job.request = requestOf s.retry (.of r.source range) ∧
      (s.pool.outcomes job.ticket).length + 1 = attempt ∧
      (requestOf s.retry (.of r.source range)).Tried (s.pool.outcomes job.ticket) := by
  obtain ⟨desks, haccounts⟩ := h.invariant.accounts
  obtain ⟨pre, d, post, rfl, -, hd⟩ := haccounts.desk_of hw
  have hdesk : d ∈ pre ++ d :: post := List.mem_append_right _ List.mem_cons_self
  have hjob : job ∈ d.jobs := by
    refine List.mem_append_left _ ?_
    rw [hd]
    exact List.mem_singleton.mpr rfl
  obtain ⟨range, hrange, -, hrequest⟩ := range_of_jobs haccounts hdesk hjob
  have hagrees := haccounts.agrees d hdesk
  rw [hd] at hagrees
  obtain ⟨-, hattempt, htried⟩ := hagrees
  exact ⟨range, hrange, hrequest, hattempt, hrequest ▸ htried⟩

/-- A policy with a limit bounds the attempts, whatever becomes of the writes. -/
theorem Intact.bounded_of_limit (h : s.Intact r store₀) {n : Nat}
    (hn : s.retry.maxAttempts = some n) : s.Bounded fun _ => max 1 n := by
  intro i tally job attempt hw
  obtain ⟨range, -, -, hattempt, htried⟩ := h.running hw
  show attempt ≤ max 1 n
  cases hlast : (s.pool.outcomes job.ticket)[attempt - 2]? with
  | none =>
    have hlength := List.getElem?_eq_none_iff.mp hlast
    omega
  | some o =>
    have hlt := (List.getElem?_eq_some_iff.mp hlast).1
    obtain ⟨e, -, -, hallows⟩ := htried (attempt - 2) o hlast
    have hbefore : attempt - 2 + 1 < n := by
      simpa [requestOf, RetryPolicy.allowsRetry, hn] using hallows
    omega

theorem Smooth.bounded (h : s.Smooth r store₀) (hfollows : s.Follows script)
    (hk : ∀ range ∈ s.plan.ranges, s.retry.Settles (script range) (k range)) : s.Bounded k := by
  intro i tally job attempt hw
  obtain ⟨range, hrange, hrequest, hattempt, htried⟩ := h.running hw
  have hsettles := hk range (List.mem_of_getElem? hrange)
  rw [hrequest]
  show attempt ≤ k range
  refine Nat.not_lt.mp fun hlt => ?_
  have hnot := h.invariant.first_of_tried h.nodup hfollows hrange (List.append_nil _).symm htried
    hsettles.pos (by omega)
  exact nomatch hsettles.final.symm.trans hnot

theorem Intact.bounded_run (h : s.Intact r store₀) {n : Nat} (hn : s.retry.maxAttempts = some n) :
    ∀ actions s', s.run actions = some s' → s'.Bounded fun _ => max 1 n := by
  intro actions s' hrun
  refine (intact_run h hrun).bounded_of_limit ?_
  rw [(constants_of_run (jittered_of_run hrun) hrun).2]
  exact hn

theorem Smooth.bounded_run (h : s.Smooth r store₀)
    (hscript : ∀ actions s', s.run actions = some s' → s'.Follows script)
    (hk : ∀ range ∈ s.plan.ranges, s.retry.Settles (script range) (k range)) :
    ∀ actions s', s.run actions = some s' → s'.Bounded k := by
  intro actions s' hrun
  obtain ⟨hplan, hretry⟩ := constants_of_run (jittered_of_run hrun) hrun
  refine (smooth_run h hrun).bounded (hscript actions s' hrun) ?_
  rw [hplan, hretry]
  exact hk

theorem Smooth.exists_end (h : s.Smooth r store₀)
    (hscript : ∀ actions s', s.run actions = some s' → s'.Follows script)
    (hk : ∀ range ∈ s.plan.ranges, s.retry.Settles (script range) (k range)) :
    ∃ actions s' result, s.run actions = some s' ∧ s'.result? = some result :=
  h.toIntact.exists_end (h.bounded_run hscript hk)

end Session
end ImageUpload
