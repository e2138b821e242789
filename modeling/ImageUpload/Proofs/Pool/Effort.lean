import ImageUpload.Proofs.Pool.Verdict

/-
How much is left to do in a pool.

`effort` weighs what each worker and each request in the queue still has before it, if no
request takes more than `k` attempts.  Whatever a worker does leaves less of it,
`effort_move` and `effort_finish`, and as long as there are workers one of them can go on or
the sender can, `exists_turn`.  So every run can be brought to an end, `exists_end`.
-/

namespace ImageUpload

variable {ω ε : Type}

theorem sum_map_set {α : Type} {l : List α} {i : Nat} {a : α} (f : α → Nat) (h : l[i]? = some a)
    (b : α) : ((l.set i b).map f).sum + f a = (l.map f).sum + f b := by
  induction l generalizing i with
  | nil => exact nomatch h
  | cons c rest ih =>
    cases i with
    | zero =>
      injection h with h
      subst h
      rw [List.set_cons_zero, List.map_cons, List.map_cons, List.sum_cons, List.sum_cons]
      omega
    | succ i =>
      have hrest := ih h
      rw [List.set_cons_succ, List.map_cons, List.map_cons, List.sum_cons, List.sum_cons]
      omega

/-! ## The weights -/

/-- A worker has its attempts to end and to begin again, or its wait to abandon, and to
leave. -/
def Worker.effort (k : Job ω ε → Nat) : Worker ω ε → Nat
  | .idle _ => 1
  | .running _ job attempt => 2 * (k job - attempt) + 3
  | .waiting _ job attempt _ _ => 2 * (k job - attempt) + 2
  | .left _ => 0
  | .dead => 0

namespace Pool

/-- A request in the queue has all of its attempts before it. -/
def effort (k : Job ω ε → Nat) (p : Pool ω ε) : Nat :=
  (p.queue.map fun job => 2 * k job + 3).sum + (p.workers.map (Worker.effort k)).sum

variable {p p' : Pool ω ε} {k : Job ω ε → Nat}

theorem effort_set {i : Nat} {w : Worker ω ε} (hw : p.workers[i]? = some w) (w' : Worker ω ε) :
    (p.setWorker i w').effort k + w.effort k = p.effort k + w'.effort k := by
  have hset := sum_map_set (Worker.effort k) hw w'
  unfold effort
  show (p.queue.map _).sum + ((p.workers.set i w').map (Worker.effort k)).sum + w.effort k = _
  omega

/-- A worker that is done with its request has only to leave. -/
theorem effort_settleAt {i : Nat} {w : Worker ω ε} (hw : p.workers[i]? = some w)
    (heffort : 2 ≤ w.effort k) (tally : Tally) (job : Job ω ε) (attempt : Nat) (fate : Fate ε) :
    (p.settleAt i tally job attempt fate).effort k < p.effort k := by
  have hset := effort_set (k := k) hw (.after tally job.request.id fate)
  have hafter : (Worker.after tally job.request.id fate : Worker ω ε).effort k ≤ 1 := by
    cases fate with
    | completed | failed => exact Nat.le_refl 1
    | lost => exact Nat.zero_le 1
  show (p.setWorker i (.after tally job.request.id fate)).effort k < _
  omega

/-- A move leaves less to do, if nobody waits for an attempt after the last one. -/
theorem effort_move (h : p.Moves p')
    (hle : p.cancelled = false → ∀ (i : Nat) tally job attempt e delay,
      p.workers[i]? = some (.waiting tally job attempt e delay) → attempt < k job) :
    p'.effort k < p.effort k := by
  cases h with
  | take i tally job rest hw hq hcancelled =>
    have hset := effort_set (k := k) (p := { p with queue := rest }) hw (.running tally job 1)
    have hqueue : p.effort k = ({ p with queue := rest } : Pool ω ε).effort k + (2 * k job + 3) := by
      unfold effort
      rw [hq, List.map_cons, List.sum_cons]
      show _ = (rest.map _).sum + (p.workers.map _).sum + _
      omega
    change _ + 1 = _ + (2 * (k job - 1) + 3) at hset
    show (({ p with queue := rest } : Pool ω ε).setWorker i _).effort k < _
    omega
  | wake i tally job attempt e delay hw hcancelled =>
    have hlt := hle hcancelled i tally job attempt e delay hw
    have hset := effort_set (k := k) hw (.running tally job (attempt + 1))
    change _ + (2 * (k job - attempt) + 2) = _ + (2 * (k job - (attempt + 1)) + 3) at hset
    show (p.setWorker i _).effort k < _
    omega
  | abandon i tally job attempt e delay hw hcancelled =>
    exact effort_settleAt hw (Nat.le_add_left 2 _) tally job attempt (.failed (.failed e))
  | leave i tally hw hidle =>
    have hset := effort_set (k := k) hw (.left tally)
    change _ + 1 = _ + 0 at hset
    omega

theorem effort_finish {i : Nat} {o : Outcome ε} {jitter : Float}
    (hp : p.finish i o jitter = some p') : p'.effort k < p.effort k := by
  obtain ⟨tally, job, attempt, hw, hcases⟩ := finish_cases (J := fun _ => True) trivial hp
  rcases hcases with ⟨fate, -, rfl⟩ | ⟨e, delay, -, -, rfl⟩
  · refine effort_settleAt (p := p.record _) hw ?_ tally job attempt fate
    show 2 ≤ 2 * (k job - attempt) + 3
    omega
  · have hset := effort_set (k := k) hw (.waiting tally job attempt e delay)
    change _ + (2 * (k job - attempt) + 3) = _ + (2 * (k job - attempt) + 2) at hset
    show (p.setWorker i _).effort k < _
    omega

/-! ## Turns -/

theorem finish_isSome {i : Nat} {tally : Tally} {job : Job ω ε} {attempt : Nat}
    (hw : p.workers[i]? = some (.running tally job attempt)) (o : Outcome ε) {jitter : Float}
    (hjitter : Jittered jitter) : ∃ p', p.finish i o jitter = some p' := by
  unfold Pool.finish
  rw [hw]
  simp only
  rw [if_pos (show 0.75 ≤ jitter ∧ jitter < 1.25 from hjitter)]
  cases o with
  | done | failed | panicked | crashed => exact ⟨_, rfl⟩

theorem take_isSome {i : Nat} {tally : Tally} (hw : p.workers[i]? = some (.idle tally))
    (hq : p.queue ≠ []) (hcancelled : p.cancelled = false) : ∃ p', p.take i = some p' := by
  obtain ⟨job, rest, hq⟩ := List.exists_cons_of_ne_nil hq
  unfold take
  rw [hw, hq]
  exact ⟨_, if_neg (Bool.eq_false_iff.mp hcancelled)⟩

theorem wake_isSome {i : Nat} {tally : Tally} {job : Job ω ε} {attempt : Nat} {e : ε}
    {delay : Duration} (hw : p.workers[i]? = some (.waiting tally job attempt e delay))
    (hcancelled : p.cancelled = false) : ∃ p', p.wake i = some p' := by
  unfold wake
  rw [hw]
  exact ⟨_, if_neg (Bool.eq_false_iff.mp hcancelled)⟩

theorem abandon_isSome {i : Nat} {tally : Tally} {job : Job ω ε} {attempt : Nat} {e : ε}
    {delay : Duration} (hw : p.workers[i]? = some (.waiting tally job attempt e delay))
    (hcancelled : p.cancelled = true) : ∃ p', p.abandon i = some p' := by
  unfold abandon
  rw [hw]
  exact ⟨_, if_pos hcancelled⟩

theorem leave_isSome {i : Nat} {tally : Tally} (hw : p.workers[i]? = some (.idle tally))
    (hidle : p.cancelled = true ∨ p.closed = true ∧ p.queue = []) : ∃ p', p.leave i = some p' := by
  unfold leave
  rw [hw]
  refine ⟨_, if_pos ?_⟩
  rwa [Bool.or_eq_true, Bool.and_eq_true, List.isEmpty_iff]

/-- What a worker does on its turn, by the script. -/
def Turns (script : Nat → Nat → Outcome ε) (p : Pool ω ε) : PoolAction ω ε → Prop
  | .finish i o _ => ∀ tally job attempt, p.workers[i]? = some (.running tally job attempt) →
      o = script job.ticket attempt
  | a => a.isMove = true

/-- As long as there are workers, one of them can go on, unless all of them wait for the
sender. -/
theorem exists_turn (script : Nat → Nat → Outcome ε) (hgone : p.gone = false)
    (hsender : p.cancelled = false → p.queue = [] → p.closed = true) :
    ∃ a p', p.Turns script a ∧ p.act a = some p' := by
  obtain ⟨w, hmem, hw⟩ := List.all_eq_false.mp hgone
  obtain ⟨i, hi⟩ := List.mem_iff_getElem?.mp hmem
  cases w with
  | left tally => exact absurd rfl hw
  | dead => exact absurd rfl hw
  | running tally job attempt =>
    obtain ⟨p', hp'⟩ := finish_isSome hi (script job.ticket attempt) jittered_plain
    refine ⟨.finish i (script job.ticket attempt) Session.plainJitter, p', ?_, hp'⟩
    intro tally' job' attempt' hi'
    rw [hi] at hi'
    injection hi' with hi'
    injection hi' with _ hjob hattempt
    rw [hjob, hattempt]
  | waiting tally job attempt e delay =>
    cases hcancelled : p.cancelled with
    | true =>
      obtain ⟨p', hp'⟩ := abandon_isSome hi hcancelled
      exact ⟨.abandon i, p', rfl, hp'⟩
    | false =>
      obtain ⟨p', hp'⟩ := wake_isSome hi hcancelled
      exact ⟨.wake i, p', rfl, hp'⟩
  | idle tally =>
    by_cases hidle : p.cancelled = true ∨ p.closed = true ∧ p.queue = []
    · obtain ⟨p', hp'⟩ := leave_isSome hi hidle
      exact ⟨.leave i, p', rfl, hp'⟩
    · obtain ⟨hcancelled, hbusy⟩ := not_or.mp hidle
      have hcancelled := Bool.eq_false_iff.mpr hcancelled
      have hq : p.queue ≠ [] := fun hq => hbusy ⟨hsender hcancelled hq, hq⟩
      obtain ⟨p', hp'⟩ := take_isSome hi hq hcancelled
      exact ⟨.take i, p', rfl, hp'⟩

theorem Turns.sends {script : Nat → Nat → Outcome ε} {a : PoolAction ω ε} (h : p.Turns script a) :
    a.sends = [] := by
  cases a with
  | send r => exact nomatch h
  | close | tearDown | take | finish | wake | abandon | leave => rfl

/-- A turn by the script keeps to it, and leaves less to do. -/
theorem Turns.step {script : Nat → Nat → Outcome ε} {a : PoolAction ω ε} (h : p.Turns script a)
    (hp : p.act a = some p') (hfollows : p.Follows script)
    (hle : p.cancelled = false → ∀ (i : Nat) tally job attempt e delay,
      p.workers[i]? = some (.waiting tally job attempt e delay) → attempt < k job) :
    p'.Follows script ∧ p'.effort k < p.effort k ∧ p'.closed = p.closed ∧
      p'.cancelled = p.cancelled := by
  have move : p.Moves p' → p'.Follows script ∧ p'.effort k < p.effort k ∧ p'.closed = p.closed ∧
      p'.cancelled = p.cancelled := by
    intro hmoves
    obtain ⟨new, hnew, hbegan⟩ := hmoves.history
    obtain ⟨hclosed, hcancelled, -⟩ := hmoves.flags
    refine ⟨fun i ticket attempt o hmem => ?_, effort_move hmoves hle, hclosed, hcancelled⟩
    rw [hnew] at hmem
    rcases List.mem_append.mp hmem with hmem | hmem
    · exact hfollows i ticket attempt o hmem
    · exact nomatch (hbegan _ hmem).1
  cases a with
  | send r => exact nomatch h
  | close => exact nomatch h
  | tearDown => exact nomatch h
  | take i => exact move (moves_of_take hp)
  | wake i => exact move (moves_of_wake hp)
  | abandon i => exact move (moves_of_abandon hp)
  | leave i => exact move (moves_of_leave hp)
  | finish i o jitter =>
    obtain ⟨hclosed, hcancelled, -⟩ := flags_of_finish hp
    obtain ⟨tally, job, attempt, hw, hnew⟩ := history_of_finish hp
    refine ⟨fun j ticket n o' hmem => ?_, effort_finish hp, hclosed, hcancelled⟩
    rw [hnew] at hmem
    rcases List.mem_append.mp hmem with hmem | hmem
    · exact hfollows j ticket n o' hmem
    · obtain ⟨-, rfl, rfl, rfl⟩ := PoolEvent.ended.inj (List.mem_singleton.mp hmem)
      exact h tally job _ hw

/-- If there is always something that leaves less to do, the end can be reached. -/
theorem exists_end {P : Pool ω ε → List (Request ω ε) → Prop}
    {m : Pool ω ε → List (Request ω ε) → Nat}
    (hstep : ∀ p sent, P p sent → p.gone = false → ∃ a p', p.act a = some p' ∧
      P p' (sent ++ a.sends) ∧ m p' (sent ++ a.sends) < m p sent)
    {sent : List (Request ω ε)} (hp : P p sent) :
    ∃ actions p', p.run actions = some p' ∧ p'.gone = true ∧
      P p' (sent ++ actions.flatMap PoolAction.sends) := by
  induction hm : m p sent using Nat.strongRecOn generalizing p sent with
  | ind n ih =>
    cases hgone : p.gone with
    | true => exact ⟨[], p, rfl, hgone, by rwa [List.flatMap_nil, List.append_nil]⟩
    | false =>
      obtain ⟨a, q, hq, hPq, hlt⟩ := hstep p sent hp hgone
      obtain ⟨actions, p', hrun, hgone', hPp'⟩ := ih _ (hm ▸ hlt) hPq rfl
      refine ⟨a :: actions, p', ?_, hgone', ?_⟩
      · show (p.act a).bind _ = _
        rw [hq]
        exact hrun
      · rw [List.flatMap_cons, ← List.append_assoc]
        exact hPp'

end Pool
end ImageUpload
