import Mathlib.Data.List.Flatten
import Mathlib.Data.List.Perm.Subperm
import ImageUpload.Proofs.Pool.Record
import ImageUpload.Proofs.Pool.Report
import ImageUpload.Proofs.Pool.Staff
import ImageUpload.Proofs.Pool.Verdict

/-
Workers that die.

An attempt is fatal if its work cannot be begun, its error cannot be judged, or the wait
after it cannot be held.  Each fatal attempt costs the pool one worker, `dead_act`, and
nothing else does, so the report counts the fatal attempts.  The dead leave no tally, and
each of them held a request, so the report falls short of the requests exactly if somebody
died: `deaths_show`.
-/

namespace ImageUpload

variable {ω ε : Type}

/-- The attempt takes its worker along. -/
def Request.isFatal (r : Request ω ε) (attempt : Nat) (jitter : Float) : Outcome ε → Bool
  | .crashed => true
  | .failed e =>
    match r.retries e with
    | none => true
    | some again => again && r.policy.allowsRetry attempt && (r.policy.delay? attempt jitter).isNone
  | _ => false

def PoolEvent.worker : PoolEvent ε → Nat
  | began i _ _ => i
  | ended i _ _ _ => i

namespace Pool

/-- The action ends a fatal attempt. -/
def kills (p : Pool ω ε) : PoolAction ω ε → Bool
  | .finish i outcome jitter =>
    match p.workers[i]? with
    | some (.running _ job attempt) => job.request.isFatal attempt jitter outcome
    | _ => false
  | _ => false

/-- How many workers die in the course of a list of actions. -/
def deaths (p : Pool ω ε) : List (PoolAction ω ε) → Nat
  | [] => 0
  | a :: rest =>
    (if p.kills a then 1 else 0) +
      match p.act a with
      | some p' => p'.deaths rest
      | none => 0

def dead (p : Pool ω ε) : Nat :=
  p.workers.countP Worker.isDead

variable {p p' : Pool ω ε}

/-! ## Steps and runs -/

theorem dead_set {i : Nat} {v : Worker ω ε} (hv : p.workers[i]? = some v)
    (halive : v.isDead = false) (w : Worker ω ε) :
    (p.workers.set i w).countP Worker.isDead = p.dead + if w.isDead then 1 else 0 := by
  obtain ⟨hi, heq⟩ := List.getElem?_eq_some_iff.mp hv
  rw [List.countP_set hi, heq, halive]
  simp [dead]

/-- The worker whose attempt ends is dead if the attempt was fatal. -/
theorem worker_of_finish {i : Nat} {o : Outcome ε} {jitter : Float}
    (hp : p.finish i o jitter = some p') :
    ∃ tally job attempt w, p.workers[i]? = some (.running tally job attempt) ∧
      p'.workers = p.workers.set i w ∧ w.isDead = job.request.isFatal attempt jitter o := by
  unfold finish at hp
  split at hp
  next tally job attempt hw =>
    refine ⟨tally, job, attempt, ?_⟩
    split at hp
    next _ =>
      cases o with
      | done =>
        cases hp
        exact ⟨_, hw, rfl, rfl⟩
      | panicked payload =>
        cases hp
        exact ⟨_, hw, rfl, rfl⟩
      | crashed =>
        cases hp
        exact ⟨_, hw, rfl, rfl⟩
      | failed e =>
        cases hp
        simp only [Request.isFatal, judge]
        split
        next hr => exact ⟨_, hw, rfl, by simp [hr, Worker.isDead]⟩
        next hr => exact ⟨_, hw, rfl, by simp [hr, Worker.isDead]⟩
        next hr =>
          by_cases hallows : job.request.policy.allowsRetry attempt = true
          · rw [if_pos hallows]
            split
            next delay hdelay => exact ⟨_, hw, rfl, by simp [hr, hdelay, Worker.isDead]⟩
            next hdelay => exact ⟨_, hw, rfl, by simp [hr, hallows, hdelay, Worker.isDead]⟩
          · rw [if_neg hallows]
            exact ⟨_, hw, rfl, by simp [hr, hallows, Worker.isDead]⟩
    next _ => simp at hp
  next _ => simp at hp

/-- What a worker does apart from ending an attempt kills nobody. -/
theorem Moves.dead (h : p.Moves p') : p'.dead = p.dead := by
  cases h with
  | take i tally job rest hw hq hcancelled => exact dead_set hw rfl _
  | wake i tally job attempt e delay hw hcancelled => exact dead_set hw rfl _
  | abandon i tally job attempt e delay hw hcancelled => exact dead_set hw rfl _
  | leave i tally hw hidle => exact dead_set hw rfl _

theorem dead_act {a : PoolAction ω ε} (hp : p.act a = some p') :
    p'.dead = p.dead + if p.kills a then 1 else 0 := by
  cases a with
  | finish i o jitter =>
    obtain ⟨tally, job, attempt, w, hw, hworkers, hdead⟩ := worker_of_finish hp
    have hkills : p.kills (.finish i o jitter) = w.isDead := by
      simp [kills, hw, hdead]
    rw [hkills, ← dead_set hw rfl w, ← hworkers]
    rfl
  | send r =>
    rw [send_eq hp]
    rfl
  | close =>
    cases hp
    rfl
  | tearDown =>
    cases hp
    rfl
  | take i => exact (moves_of_take hp).dead
  | wake i => exact (moves_of_wake hp).dead
  | abandon i => exact (moves_of_abandon hp).dead
  | leave i => exact (moves_of_leave hp).dead

theorem dead_run {actions : List (PoolAction ω ε)} (hp : p.run actions = some p') :
    p'.dead = p.dead + p.deaths actions := by
  induction actions generalizing p with
  | nil =>
    cases hp
    rfl
  | cons a rest ih =>
    obtain ⟨q, hq, hp⟩ := Option.bind_eq_some_iff.mp hp
    have hfirst := dead_act hq
    have hrest := ih hp
    simp only [deaths, hq]
    omega

theorem dead_start (parallelism capacity : Nat) :
    (start parallelism capacity : Pool ω ε).dead = 0 := by
  apply List.countP_eq_zero.mpr
  intro w hw
  rw [(List.mem_replicate.mp hw).2]
  simp [Worker.isDead]

/-! ## One worker for each request -/

theorem worker_of_mem_attempts {i t n : Nat} {outcomes : List (Outcome ε)} {e : PoolEvent ε}
    (h : e ∈ attempts i t n outcomes) : e.worker = i := by
  induction outcomes generalizing n with
  | nil => simp [attempts] at h
  | cons o rest ih =>
    simp only [attempts, List.mem_cons] at h
    rcases h with rfl | rfl | h
    · rfl
    · rfl
    · exact ih h

theorem Recorded.one_worker (h : p.Recorded) (t : Nat) : ∃ i, ∀ e ∈ p.eventsOf t, e.worker = i := by
  obtain ⟨i, hended | ⟨tally, job, attempt, -, -, hbegan⟩⟩ := h.eventsOf_cases t
  · exact ⟨i, fun e he => worker_of_mem_attempts (hended ▸ he)⟩
  · refine ⟨i, fun e he => ?_⟩
    rw [hbegan] at he
    rcases List.mem_append.mp he with he | he
    · exact worker_of_mem_attempts he
    · rw [List.mem_singleton.mp he]
      rfl

/-! ## The report -/

variable {J : Float → Prop} {sent : List (Request ω ε)} {desks : List (Desk ω ε)}

theorem Accounts.dead_eq (h : p.Accounts J sent desks) :
    p.dead = desks.countP fun d => d.worker.isDead := by
  rw [dead, h.workers, List.countP_map]
  rfl

/-- Each of the dead had a request, and what is queued is nowhere in the report. -/
theorem Accounts.report_le (h : p.Accounts J sent desks) (hgone : p.gone = true) :
    p.report.completed + p.report.failed.length + p.dead + p.queue.length ≤ sent.length := by
  have hsize := (h.jobs_of_gone hgone).length_eq
  -- the request that a worker died over is settled and not reported
  have hle := Desk.length_allReported_le h.agrees
  rw [← h.report_size hgone, ← h.dead_eq] at hle
  simp only [List.length_append, List.length_map, length_numbered] at hsize
  omega

/-- If nobody died and nothing is queued, all requests are in the report. -/
theorem Accounts.report_eq_sent (h : p.Accounts J sent desks) (hgone : p.gone = true)
    (hdead : p.dead = 0) (hqueue : p.queue = []) :
    p.report.completed + p.report.failed.length = sent.length := by
  have hsize := (h.jobs_of_gone hgone).length_eq
  rw [h.dead_eq, List.countP_eq_zero] at hdead
  have hall := Desk.allReported_eq fun d hd => Bool.eq_false_iff.mpr (hdead d hd)
  rw [hqueue, ← hall] at hsize
  simp only [List.nil_append, List.length_map, length_numbered] at hsize
  rw [h.report_size hgone, hsize]

/-- A failure that the report tells of has been published. -/
theorem Accounts.failed_subperm (h : p.Accounts J sent desks) (hgone : p.gone = true) :
    p.report.failed.Subperm (p.failures.map Failure.id) := by
  have hreported : (Desk.allReported desks).Sublist (Desk.allSettled desks) := by
    apply List.Sublist.flatMap_right
    intro d hd
    unfold Desk.reported
    split <;> simp
  have hfailed : ((Desk.allReported desks).filterMap Settlement.failure?).map Failure.id =
      p.report.failed := congrArg Tally.failed (h.report_eq hgone)
  have hpublished : p.failures.Perm ((Desk.allSettled desks).filterMap Settlement.failure?) := by
    have hflat : desks.flatMap Desk.failures =
        (Desk.allSettled desks).filterMap Settlement.failure? := by
      unfold Desk.allSettled
      rw [List.filterMap_flatMap]
      rfl
    rw [← hflat]
    exact h.failures
  rw [← hfailed]
  exact ((hreported.filterMap _).map _).subperm.trans (hpublished.map _).symm.subperm

theorem Staffed.all_dead (h : p.Staffed) (hclosed : p.closed = false)
    (hcancelled : p.cancelled = false) (hgone : p.gone = true) : ∀ w ∈ p.workers, w = .dead := by
  intro w hw
  have hwgone : w.gone = true := List.all_eq_true.mp hgone w hw
  cases w with
  | left tally =>
    rcases h.left tally hw with h | h
    · simp [hcancelled] at h
    · simp [hclosed] at h
  | dead => rfl
  | idle | running | waiting => simp [Worker.gone] at hwgone

theorem send_isSome {r : Request ω ε} (hclosed : p.closed = false) (hgone : p.gone = false)
    (hroom : p.queue.length < p.capacity) : (p.send r).isSome = true := by
  simp [send, hclosed, hgone, hroom]

/-! ## All together -/

/-- What is known of a pool in the course of a run. -/
structure Known (sent : List (Request ω ε)) (p : Pool ω ε) : Prop where
  accounts : ∃ desks, p.Accounts (fun _ => True) sent desks
  recorded : p.Recorded
  staffed : p.Staffed

theorem known_start (parallelism capacity : Nat) :
    (start parallelism capacity : Pool ω ε).Known [] :=
  ⟨⟨_, accounts_start parallelism capacity⟩, recorded_start parallelism capacity,
    staffed_start parallelism capacity⟩

theorem known_act {a : PoolAction ω ε} (h : p.Known sent) (hp : p.act a = some p') :
    p'.Known (sent ++ a.sends) := by
  obtain ⟨desks, hacc⟩ := h.accounts
  have hJ : a.Draws fun _ => True := by
    cases a <;> trivial
  exact ⟨accounts_act hacc hJ hp, recorded_act h.recorded hacc hp, staffed_act h.staffed hp⟩

theorem known_run {actions : List (PoolAction ω ε)} (h : p.Known sent)
    (hp : p.run actions = some p') : p'.Known (sent ++ actions.flatMap PoolAction.sends) := by
  induction actions generalizing p sent with
  | nil =>
    cases hp
    simpa using h
  | cons a rest ih =>
    obtain ⟨q, hq, hp⟩ := Option.bind_eq_some_iff.mp hp
    rw [List.flatMap_cons, ← List.append_assoc]
    exact ih (known_act h hq) hp

/-- What every action keeps, every run keeps. -/
theorem Known.run_keeps {P : Pool ω ε → Prop} {actions : List (PoolAction ω ε)} (h : p.Known sent)
    (hstep : ∀ q q' sent a, q.Known sent → P q → q.act a = some q' → P q') (hP : P p)
    (hp : p.run actions = some p') : P p' := by
  induction actions generalizing p sent with
  | nil =>
    cases hp
    exact hP
  | cons a rest ih =>
    obtain ⟨q, hq, hp⟩ := Option.bind_eq_some_iff.mp hp
    exact ih (known_act h hq) (hstep p q sent a h hP hq) hp

/-- Over every run without a teardown, whoever dies on the way: a request is refused only if
all workers are dead, no request is given to two workers, and when no worker is left the
report counts the deaths, tells of no failure that was not published, and counts fewer
requests than were accepted if and only if somebody died. -/
theorem deaths_show {parallelism capacity : Nat} {actions : List (PoolAction ω ε)}
    (hrun : (start parallelism capacity).run actions = some p) (hcancelled : p.cancelled = false) :
    p.accepted = (actions.flatMap PoolAction.sends).length ∧
    (p.closed = false → p.gone = true → ∀ w ∈ p.workers, w = .dead) ∧
    (p.closed = false → p.gone = false → p.queue.length < p.capacity →
      ∀ r, (p.send r).isSome = true) ∧
    (∀ t, ∃ i, ∀ e ∈ p.eventsOf t, e.worker = i) ∧
    (p.gone = true →
      p.report.lostWorkers = (start parallelism capacity).deaths actions ∧
      p.report.completed + p.report.failed.length ≤ p.accepted ∧
      (p.report.completed + p.report.failed.length = p.accepted ↔ p.report.lostWorkers = 0) ∧
      p.report.failed.Subperm (p.failures.map Failure.id)) := by
  have hknown := known_run (known_start parallelism capacity) hrun
  rw [List.nil_append] at hknown
  obtain ⟨desks, hacc⟩ := hknown.accounts
  refine ⟨hacc.accepted, fun hclosed => hknown.staffed.all_dead hclosed hcancelled,
    fun hclosed hgone hroom r => send_isSome hclosed hgone hroom, hknown.recorded.one_worker, ?_⟩
  intro hgone
  have hlost : p.report.lostWorkers = p.dead := rfl
  have hle := hacc.report_le hgone
  rw [hlost, hacc.accepted]
  refine ⟨?_, by omega, ⟨by omega, fun hnone => ?_⟩, hacc.failed_subperm hgone⟩
  · rw [dead_run hrun, dead_start, Nat.zero_add]
  · have hdead : .dead ∉ p.workers := fun hmem => List.countP_eq_zero.mp hnone _ hmem rfl
    have hqueue := (hknown.staffed.closed_of_gone hgone hcancelled hdead).2
    exact hacc.report_eq_sent hgone hnone hqueue

/-- A request that is done, one that fails, one whose error nobody can judge, and one for the
other worker. -/
def doneRequest : Request Unit Nat :=
  ⟨"done", (), .noRetry, alwaysRetry⟩

def failingRequest : Request Unit Nat :=
  ⟨"failing", (), .noRetry, alwaysRetry⟩

def fatalRequest : Request Unit Nat :=
  ⟨"fatal", (), .noRetry, fun _ => none⟩

/-- The worker that dies over its third request takes its success and its failure along, and
the failure stays published. -/
theorem deaths_show_third :
    ∃ (actions : List (PoolAction Unit Nat)) (p : Pool Unit Nat),
      (start 2 4).run actions = some p ∧ p.cancelled = false ∧ p.gone = true ∧
      p.report.lostWorkers = 1 ∧ p.accepted = 4 ∧ p.report.completed = 1 ∧
      p.report.failed = [] ∧ p.failures.map Failure.id = ["failing"] ∧
      p.report.completed + p.report.failed.length ≠ p.accepted := by
  let actions : List (PoolAction Unit Nat) :=
    [.send doneRequest, .send failingRequest, .send fatalRequest, .send doneRequest,
      .take 0, .finish 0 .done 1, .take 0, .finish 0 (.failed 7) 1, .take 0,
      .finish 0 (.failed 9) 1, .take 1, .finish 1 .done 1, .close, .leave 1]
  have hends : ((start 2 4).run actions).map (fun p => (p.cancelled, p.gone, p.report.completed,
      p.report.failed, p.failures.map Failure.id)) =
      some (false, true, 1, [], ["failing"]) := by decide +kernel
  obtain ⟨p, hrun, hp⟩ := Option.map_eq_some_iff.mp hends
  simp only [Prod.mk.injEq] at hp
  obtain ⟨hcancelled, hgone, hcompleted, hfailed, hfailures⟩ := hp
  obtain ⟨haccepted, -, -, -, hreport⟩ := deaths_show hrun hcancelled
  obtain ⟨hlost, -, hiff, -⟩ := hreport hgone
  have hone : (start 2 4).deaths actions = 1 := by decide +kernel
  rw [hone] at hlost
  refine ⟨actions, p, hrun, hcancelled, hgone, hlost, haccepted, hcompleted, hfailed, hfailures, ?_⟩
  intro hall
  have := hiff.mp hall
  omega

end Pool
end ImageUpload
