import ImageUpload.Proofs.Pool.Effort
import ImageUpload.Proofs.Session.Intact
import ImageUpload.Session.Schedule

/-
How much is left to do in a session.

`work` weighs what each range, each worker and each event still has before it, if no range
takes more than `k` attempts.  Every action but a tick leaves less of it, `work_step`, so
that a session has only so many actions, in whatever order they come.
-/

namespace ImageUpload

variable {k : ByteRange → Nat}

/-! ## The weights -/

/-- A worker has its attempts to end and to begin again, a failure to be heard of and told,
and to leave. -/
def Worker.work (k : ByteRange → Nat) : Worker Chunk StorageError → Nat
  | .idle _ => 1
  | .running _ job attempt => 2 * (k job.request.work.range + 1 - attempt) + 3
  | .waiting _ job attempt _ _ => 2 * (k job.request.work.range - attempt) + 4
  | .left _ => 0
  | .dead => 0

/-- A request in the queue has all of its attempts before it. -/
def Job.work (k : ByteRange → Nat) (job : Job Chunk StorageError) : Nat :=
  2 * k job.request.work.range + 3

def Pool.work (k : ByteRange → Nat) (p : Pool Chunk StorageError) : Nat :=
  (p.queue.map (Job.work k)).sum + (p.workers.map (Worker.work k)).sum

/-- A range is read, offered, taken and queued. -/
def Stream.work (k : ByteRange → Nat) (s : Stream) : Nat :=
  (s.remaining.map fun range => 2 * k range + 7).sum +
    (s.hand.toList.map fun c => 2 * k c.range + 6).sum +
    (s.slot.toList.map fun c => 2 * k c.range + 5).sum + if s.ended.isNone then 1 else 0

def Phase.work (k : ByteRange → Nat) : Phase → Nat
  | .streaming => 4
  | .sending c => 2 * k c.range + 8
  | .refused => 4
  | .draining _ => 3
  | .stopping _ _ => 2
  | .ended _ => 0

namespace Session

variable {σ : Type}

/-- All that is left to do. -/
def work (k : ByteRange → Nat) (s : Session σ) : Nat :=
  s.stream.work k + s.phase.work k + s.pool.work k +
    2 * (s.pool.failures.length - s.heard) + 2 * s.estimator.records.length + s.waiting.length

theorem length_enqueue_le (waiting : List UploadEvent) (e : UploadEvent) :
    (enqueue waiting e).length ≤ waiting.length + 1 := by
  unfold enqueue
  split
  next _ =>
    rw [List.length_append]
    exact Nat.le_refl _
  next _ => exact Nat.le_succ _

end Session

/-! ## The start -/

namespace Session

variable {σ : Type}

theorem sum_map_le {α : Type} {l : List α} {f : α → Nat} {n : Nat} (h : ∀ a ∈ l, f a ≤ n) :
    (l.map f).sum ≤ l.length * n := by
  induction l with
  | nil => exact Nat.zero_le _
  | cons a rest ih =>
    obtain ⟨ha, hrest⟩ := List.forall_mem_cons.mp h
    have hsum := ih hrest
    rw [List.map_cons, List.sum_cons, List.length_cons, Nat.succ_mul]
    omega

theorem work_start_le {options : UploadOptions} {parallelism : Nat} {plan : Plan} {r : Reader} {store : σ}
    (hk : ∀ range ∈ plan.ranges, k range ≤ attemptLimit options.retry) :
    (start options parallelism plan r store).work k + 2 ≤
      (start options parallelism plan r store).actionLimit := by
  have hranges : (plan.ranges.map fun range => 2 * k range + 7).sum ≤
      plan.ranges.length * (2 * attemptLimit options.retry + 7) := by
    refine sum_map_le fun range hrange => ?_
    have hle := hk range hrange
    omega
  have hworkers : ((List.replicate (max 1 parallelism) (.idle .empty)).map (Worker.work k)).sum =
      max 1 parallelism := by
    rw [List.map_replicate, List.sum_replicate_nat]
    exact Nat.mul_one _
  have hlimit : (start options parallelism plan r store).actionLimit =
      (plan.ranges.length + 1) * (2 * attemptLimit options.retry + 16) + max 1 parallelism := by
    unfold actionLimit
    rw [show (start options parallelism plan r store).pool.workers.length = max 1 parallelism from
      List.length_replicate]
    rfl
  have hwork : (start options parallelism plan r store).work k =
      (plan.ranges.map fun range => 2 * k range + 7).sum + 0 + 0 + 1 + 4 +
        (0 + ((List.replicate (max 1 parallelism) (.idle .empty)).map (Worker.work k)).sum) +
        0 + 0 + 1 := rfl
  rw [hwork, hworkers, hlimit, Nat.succ_mul]
  have hmul : plan.ranges.length * (2 * attemptLimit options.retry + 7) ≤
      plan.ranges.length * (2 * attemptLimit options.retry + 16) :=
    Nat.mul_le_mul_left _ (by omega)
  omega

theorem work_tick_le (s : Session σ) (now : Nat) :
    ({ s with estimator := s.estimator.tick now } : Session σ).work k ≤ s.work k + 2 := by
  have hrecords : (s.estimator.tick now).records.length ≤ s.estimator.records.length + 1 := by
    simp only [Estimator.tick, Estimator.sample]
    split
    next _ =>
      rw [List.length_append]
      exact Nat.le_refl _
    next _ => exact Nat.le_succ _
  simp only [work]
  omega

end Session

/-! ## The pool -/

namespace Pool

variable {p p' : Pool Chunk StorageError}

theorem work_set {i : Nat} {w : Worker Chunk StorageError} (hw : p.workers[i]? = some w)
    (w' : Worker Chunk StorageError) :
    (p.setWorker i w').work k + w.work k = p.work k + w'.work k := by
  have hset := sum_map_set (Worker.work k) hw w'
  unfold work
  show (p.queue.map (Job.work k)).sum + ((p.workers.set i w').map (Worker.work k)).sum + w.work k = _
  omega

/-- A worker that is done with its request has a failure published at most. -/
theorem work_settleAt {i : Nat} {w : Worker Chunk StorageError} (hw : p.workers[i]? = some w)
    (hwork : 4 ≤ w.work k) (tally : Tally) (job : Job Chunk StorageError) (attempt : Nat)
    (fate : Fate StorageError) :
    (p.settleAt i tally job attempt fate).work k +
        2 * (p.settleAt i tally job attempt fate).failures.length <
      p.work k + 2 * p.failures.length := by
  have hset := work_set (k := k) hw (.after tally job.request.id fate)
  have hpool : (p.settleAt i tally job attempt fate).work k =
      (p.setWorker i (.after tally job.request.id fate)).work k := rfl
  have hfailures : (p.settleAt i tally job attempt fate).failures =
      p.failures ++ (Settlement.failure? ⟨job, attempt, fate⟩).toList := rfl
  rw [hpool, hfailures, List.length_append]
  cases fate with
  | completed =>
    change _ = _ + 1 at hset
    show _ + 2 * (_ + 0) < _
    omega
  | failed e =>
    change _ = _ + 1 at hset
    show _ + 2 * (_ + 1) < _
    omega
  | lost =>
    change _ = _ + 0 at hset
    show _ + 2 * (_ + 0) < _
    omega

theorem work_move (h : p.Moves p') :
    p'.work k + 2 * p'.failures.length < p.work k + 2 * p.failures.length := by
  cases h with
  | take i tally job rest hw hq hcancelled =>
    have hset := work_set (k := k) (p := { p with queue := rest }) hw (.running tally job 1)
    have hqueue : p.work k = ({ p with queue := rest } : Pool Chunk StorageError).work k +
        (2 * k job.request.work.range + 3) := by
      unfold work
      rw [hq, List.map_cons, List.sum_cons]
      simp only [Job.work]
      omega
    change _ + 1 = _ + (2 * (k job.request.work.range + 1 - 1) + 3) at hset
    show (({ p with queue := rest } : Pool Chunk StorageError).setWorker i _).work k +
      2 * p.failures.length < _
    omega
  | wake i tally job attempt e delay hw hcancelled =>
    have hset := work_set (k := k) hw (.running tally job (attempt + 1))
    change _ + (2 * (k job.request.work.range - attempt) + 4) =
      _ + (2 * (k job.request.work.range + 1 - (attempt + 1)) + 3) at hset
    show (p.setWorker i _).work k + 2 * p.failures.length < _
    omega
  | abandon i tally job attempt e delay hw hcancelled =>
    exact work_settleAt hw (Nat.le_add_left 4 _) tally job attempt (.failed (.failed e))
  | leave i tally hw hidle =>
    have hset := work_set (k := k) hw (.left tally)
    change _ + 1 = _ + 0 at hset
    show (p.setWorker i _).work k + 2 * p.failures.length < _
    omega

/-- The end of an attempt leaves less to do, if there are no more than `k` of them. -/
theorem work_finish {i : Nat} {o : Outcome StorageError} {jitter : Float}
    (hp : p.finish i o jitter = some p')
    (hle : ∀ tally job attempt, p.workers[i]? = some (.running tally job attempt) →
      attempt ≤ k job.request.work.range) :
    p'.work k + 2 * p'.failures.length < p.work k + 2 * p.failures.length := by
  obtain ⟨tally, job, attempt, hw, hcases⟩ := finish_cases (J := fun _ => True) trivial hp
  have hattempt := hle tally job attempt hw
  rcases hcases with ⟨fate, -, rfl⟩ | ⟨e, delay, -, -, rfl⟩
  · refine work_settleAt (p := p.record _) hw ?_ tally job attempt fate
    show 4 ≤ 2 * (k job.request.work.range + 1 - attempt) + 3
    omega
  · have hset := work_set (k := k) hw (.waiting tally job attempt e delay)
    change _ + (2 * (k job.request.work.range + 1 - attempt) + 3) =
      _ + (2 * (k job.request.work.range - attempt) + 4) at hset
    show (p.setWorker i _).work k + 2 * p.failures.length < _
    omega

end Pool

/-! ## The steps -/

namespace Session

variable {σ : Type} [PageStore σ] {J : Float → Prop} {s s' : Session σ} {a : SessionAction}

/-- No attempt goes beyond the last one of its range. -/
def Bounded (k : ByteRange → Nat) (s : Session σ) : Prop :=
  ∀ (i : Nat) (tally : Tally) (job : Job Chunk StorageError) (attempt : Nat),
    s.pool.workers[i]? = some (.running tally job attempt) → attempt ≤ k job.request.work.range

/-- Every action but a tick leaves less to do. -/
theorem work_step (hstep : Step J s a s') (hheard : s.Heard) (hbounded : s.Bounded k)
    (ha : ∀ now, a ≠ .tick now) : s'.work k < s.work k := by
  have hle := hheard.le
  cases hstep with
  | read range rest data reader hended hhand hremaining hread =>
    simp only [work, Stream.work, hended, hhand, hremaining, List.map_cons, List.sum_cons,
      Option.toList_some, Option.toList_none, List.map_nil, List.sum_nil]
    omega
  | misread range rest f reader hended hhand hremaining hread =>
    simp only [work, Stream.work, hended, Option.isNone_some, Option.isNone_none, if_true,
      Bool.false_eq_true, if_false]
    omega
  | offer c hended hhand hwanted hslot =>
    simp only [work, Stream.work, hended, hhand, hslot, List.map_cons, List.sum_cons,
      Option.toList_some, Option.toList_none, List.map_nil, List.sum_nil]
    omega
  | withhold c hended hhand hwanted =>
    simp only [work, Stream.work, hended, hhand, List.map_cons, List.sum_cons, Option.toList_some,
      Option.toList_none, List.map_nil, List.sum_nil, Option.isNone_some, Option.isNone_none,
      if_true, Bool.false_eq_true, if_false]
    omega
  | close hended hhand hremaining =>
    simp only [work, Stream.work, hended, Option.isNone_some, Option.isNone_none, if_true,
      Bool.false_eq_true, if_false]
    omega
  | receive c hphase hwanted hslot =>
    simp only [work, Stream.work, Phase.work, hphase, hslot, List.map_cons, List.sum_cons,
      Option.toList_some, Option.toList_none, List.map_nil, List.sum_nil]
    omega
  | send c pool hphase hpool =>
    simp only [work, Phase.work, Pool.work, Job.work, requestOf, hphase, Pool.send_eq hpool,
      List.map_append, List.sum_append, List.map_cons, List.sum_cons, List.map_nil, List.sum_nil]
    omega
  | refuse c hphase hgone =>
    have hslot : s.stream.drop.work k ≤ s.stream.work k := by
      unfold Stream.work
      exact Nat.add_le_add_right (Nat.add_le_add_left (Nat.zero_le _) _) _
    simp only [work, Phase.work, hphase]
    omega
  | shut hready =>
    have hphase : s.phase.work k = 4 := by
      rcases hready with ⟨hphase, -⟩ | ⟨hphase, -⟩
      · rw [hphase]
        rfl
      · rw [hphase]
        rfl
    simp only [work, Pool.work, hphase]
    simp only [Phase.work]
    omega
  | move a pool hmove hpool =>
    have hpoolWork := Pool.work_move (k := k) hpool
    obtain ⟨new, hfailures⟩ := hpool.failures
    have hlength := congrArg List.length hfailures
    rw [List.length_append] at hlength
    simp only [work]
    omega
  | write i jitter tally job attempt result store pool hworker hjitter hwrite hpool =>
    have hpoolWork := Pool.work_finish hpool fun tally job attempt => hbounded i tally job attempt
    obtain ⟨new, hfailures⟩ := Pool.failures_of_finish hpool
    have hlength := congrArg List.length hfailures
    rw [List.length_append] at hlength
    have hrecords : (if result.isOk then s.estimator.report job.request.work.range.length
        else s.estimator).records = s.estimator.records := by
      split <;> rfl
    simp only [work, hrecords]
    omega
  | hear f hf hrange =>
    have hlt := (List.getElem?_eq_some_iff.mp hf).1
    simp only [work]
    omega
  | tell f x hf hrange =>
    have hlt := (List.getElem?_eq_some_iff.mp hf).1
    have hwaiting := length_enqueue_le s.waiting (.rangeFailed x)
    simp only [work]
    omega
  | tick now hmeasured hstopping hended => exact absurd rfl (ha now)
  | forward r rest hrecords =>
    have hwaiting := length_enqueue_le s.waiting (.progress r)
    simp only [work, hrecords, List.length_cons]
    omega
  | consume e rest hwaiting =>
    simp only [work, hwaiting, List.length_cons]
    omega
  | stop e hphase hgone hheard =>
    simp only [work, Phase.work, hphase]
    omega
  | conclude e last hphase hrecords =>
    have hwaiting := length_enqueue_le s.waiting
      (.finished (s.lastOutcome e) (s.bytesSent last) last.percent)
    simp only [work, Phase.work, hphase]
    omega

end Session
end ImageUpload
