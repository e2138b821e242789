import ImageUpload.Proofs.Pool.Fate

/-
What the actions of a pool do.

Every action is told in full here, by what it finds and what it leaves, `Moves` and
`finish_cases`.  What holds of pools is proved from that, and no proof opens an action
again.
-/

namespace ImageUpload

variable {ω ε : Type} {J : Float → Prop}

namespace PoolAction

/-- The requests that an action puts in the queue. -/
def sends : PoolAction ω ε → List (Request ω ε)
  | send r => [r]
  | _ => []

/-- The jitter of an action is one of these. -/
def Draws (J : Float → Prop) : PoolAction ω ε → Prop
  | finish _ _ jitter => J jitter
  | _ => True

/-- What a worker does apart from ending an attempt. -/
def isMove : PoolAction ω ε → Bool
  | take _ => true
  | wake _ => true
  | abandon _ => true
  | leave _ => true
  | _ => false

end PoolAction

/-- What a worker is once its request has met with its fate. -/
def Worker.after (tally : Tally) (id : String) : Fate ε → Worker ω ε
  | .completed => .idle { tally with completed := tally.completed + 1 }
  | .failed _ => .idle { tally with failed := tally.failed ++ [id] }
  | .lost => .dead

namespace Pool

variable {p p' : Pool ω ε}

/-! ## Moves -/

/-- What one worker does apart from ending an attempt. -/
inductive Moves (p : Pool ω ε) : Pool ω ε → Prop where
  | take (i : Nat) (tally : Tally) (job : Job ω ε) (rest : List (Job ω ε))
    (hw : p.workers[i]? = some (.idle tally)) (hq : p.queue = job :: rest)
    (hcancelled : p.cancelled = false) :
    Moves p ((({ p with queue := rest } : Pool ω ε).setWorker i (.running tally job 1)).record
      (.began i job.ticket 1))
  | wake (i : Nat) (tally : Tally) (job : Job ω ε) (attempt : Nat) (e : ε) (delay : Duration)
    (hw : p.workers[i]? = some (.waiting tally job attempt e delay))
    (hcancelled : p.cancelled = false) :
    Moves p ((p.setWorker i (.running tally job (attempt + 1))).record
      (.began i job.ticket (attempt + 1)))
  | abandon (i : Nat) (tally : Tally) (job : Job ω ε) (attempt : Nat) (e : ε) (delay : Duration)
    (hw : p.workers[i]? = some (.waiting tally job attempt e delay))
    (hcancelled : p.cancelled = true) : Moves p (p.fail i tally job attempt (.failed e))
  | leave (i : Nat) (tally : Tally) (hw : p.workers[i]? = some (.idle tally))
    (hidle : p.cancelled = true ∨ p.closed = true ∧ p.queue = []) :
    Moves p (p.setWorker i (.left tally))

theorem moves_of_take {i : Nat} (hp : p.take i = some p') : p.Moves p' := by
  unfold Pool.take at hp
  split at hp
  next tally job rest hw hq =>
    split at hp
    next _ => exact nomatch hp
    next hcancelled =>
      injection hp with hp
      exact hp ▸ .take i tally job rest hw hq (Bool.eq_false_iff.mpr hcancelled)
  next _ => exact nomatch hp

theorem moves_of_wake {i : Nat} (hp : p.wake i = some p') : p.Moves p' := by
  unfold Pool.wake at hp
  split at hp
  next tally job attempt e delay hw =>
    split at hp
    next _ => exact nomatch hp
    next hcancelled =>
      injection hp with hp
      exact hp ▸ .wake i tally job attempt e delay hw (Bool.eq_false_iff.mpr hcancelled)
  next _ => exact nomatch hp

theorem moves_of_abandon {i : Nat} (hp : p.abandon i = some p') : p.Moves p' := by
  unfold Pool.abandon at hp
  split at hp
  next tally job attempt e delay hw =>
    split at hp
    next hcancelled =>
      injection hp with hp
      exact hp ▸ .abandon i tally job attempt e delay hw hcancelled
    next _ => exact nomatch hp
  next _ => exact nomatch hp

theorem moves_of_leave {i : Nat} (hp : p.leave i = some p') : p.Moves p' := by
  unfold Pool.leave at hp
  split at hp
  next tally hw =>
    split at hp
    next hidle =>
      injection hp with hp
      rw [Bool.or_eq_true, Bool.and_eq_true, List.isEmpty_iff] at hidle
      exact hp ▸ .leave i tally hw hidle
    next _ => exact nomatch hp
  next _ => exact nomatch hp

theorem moves_of_act {a : PoolAction ω ε} (ha : a.isMove = true) (hp : p.act a = some p') :
    p.Moves p' := by
  cases a with
  | send r => exact nomatch ha
  | close => exact nomatch ha
  | tearDown => exact nomatch ha
  | finish i o jitter => exact nomatch ha
  | take i => exact moves_of_take hp
  | wake i => exact moves_of_wake hp
  | abandon i => exact moves_of_abandon hp
  | leave i => exact moves_of_leave hp

/-- Whether the queue is closed and the pool torn down is nothing to the workers, and no
move ends an attempt. -/
theorem Moves.flags (h : p.Moves p') :
    p'.closed = p.closed ∧ p'.cancelled = p.cancelled ∧ p'.ends = p.ends := by
  cases h with
  | take i tally job rest hw hq hcancelled => exact ⟨rfl, rfl, ends_began _ _ _ _⟩
  | wake i tally job attempt e delay hw hcancelled => exact ⟨rfl, rfl, ends_began _ _ _ _⟩
  | abandon i tally job attempt e delay hw hcancelled => exact ⟨rfl, rfl, rfl⟩
  | leave i tally hw hidle => exact ⟨rfl, rfl, rfl⟩

theorem gone_of_getElem? (hgone : p.gone = true) {i : Nat} {w : Worker ω ε}
    (hw : p.workers[i]? = some w) : w.gone = true :=
  List.all_eq_true.mp hgone w (List.mem_of_getElem? hw)

theorem Moves.not_gone (h : p.Moves p') : p.gone = false := by
  refine Bool.eq_false_iff.mpr fun hgone => ?_
  cases h with
  | take i tally job rest hw hq hcancelled => exact nomatch gone_of_getElem? hgone hw
  | wake i tally job attempt e delay hw hcancelled => exact nomatch gone_of_getElem? hgone hw
  | abandon i tally job attempt e delay hw hcancelled => exact nomatch gone_of_getElem? hgone hw
  | leave i tally hw hidle => exact nomatch gone_of_getElem? hgone hw

theorem send_eq {r : Request ω ε} (hp : p.send r = some p') :
    p' = { p with queue := p.queue ++ [⟨p.accepted, r⟩], accepted := p.accepted + 1 } := by
  unfold Pool.send at hp
  split at hp
  next _ => exact nomatch hp
  next _ =>
    injection hp with hp
    exact hp.symm

/-! ## Attempts -/

/-- The pool once the request of a worker has met with its fate. -/
def settleAt (p : Pool ω ε) (i : Nat) (tally : Tally) (job : Job ω ε) (attempt : Nat)
    (fate : Fate ε) : Pool ω ε :=
  { p with
    workers := p.workers.set i (.after tally job.request.id fate)
    failures := p.failures ++ (Settlement.failure? ⟨job, attempt, fate⟩).toList }

theorem fail_eq (p : Pool ω ε) (i : Nat) (tally : Tally) (job : Job ω ε) (attempt : Nat)
    (e : AttemptError ε) : p.fail i tally job attempt e = p.settleAt i tally job attempt (.failed e) :=
  rfl

theorem complete_eq (p : Pool ω ε) (i : Nat) (tally : Tally) (job : Job ω ε) (attempt : Nat) :
    p.setWorker i (.idle { tally with completed := tally.completed + 1 }) =
      p.settleAt i tally job attempt .completed := by
  unfold settleAt setWorker
  congr 1
  exact (List.append_nil _).symm

theorem lose_eq (p : Pool ω ε) (i : Nat) (tally : Tally) (job : Job ω ε) (attempt : Nat) :
    p.setWorker i .dead = p.settleAt i tally job attempt .lost := by
  unfold settleAt setWorker
  congr 1
  exact (List.append_nil _).symm

/-- An attempt ends in one of two ways: its request meets with its fate, or it will be
tried again. -/
theorem finish_cases {i : Nat} {o : Outcome ε} {jitter : Float} (hJ : J jitter)
    (hp : p.finish i o jitter = some p') :
    ∃ tally job attempt, p.workers[i]? = some (.running tally job attempt) ∧
      ((∃ fate, job.request.Ends J p.cancelled attempt o fate ∧
          p' = (p.record (.ended i job.ticket attempt o)).settleAt i tally job attempt fate) ∨
        ∃ e delay, o = .failed e ∧ job.request.Repeats attempt o ∧
          p' = (p.record (.ended i job.ticket attempt o)).setWorker i
            (.waiting tally job attempt e delay)) := by
  unfold finish at hp
  split at hp
  next tally job attempt hw =>
    refine ⟨tally, job, attempt, hw, ?_⟩
    split at hp
    next hjitter =>
      cases o with
      | done =>
        injection hp with hp
        exact .inl ⟨_, .done, by rw [← hp, complete_eq _ _ _ job attempt]⟩
      | panicked payload =>
        injection hp with hp
        exact .inl ⟨_, .panicked payload, by rw [← hp, fail_eq]⟩
      | crashed =>
        injection hp with hp
        exact .inl ⟨_, .crashed, by rw [← hp, lose_eq _ _ tally job attempt]⟩
      | failed e =>
        injection hp with hp
        unfold judge at hp
        split at hp
        next hr => exact .inl ⟨_, .unjudged e hr, by rw [← hp, lose_eq _ _ tally job attempt]⟩
        next hr => exact .inl ⟨_, .final e hr, by rw [← hp, fail_eq]⟩
        next hr =>
          split at hp
          next hallows =>
            have hrepeats : job.request.Repeats attempt (.failed e) := ⟨e, rfl, hr, hallows⟩
            split at hp
            next delay hdelay => exact .inr ⟨e, delay, rfl, hrepeats, hp.symm⟩
            next hdelay =>
              exact .inl ⟨_, .overslept e jitter hrepeats hJ hdelay,
                by rw [← hp, lose_eq _ _ tally job attempt]⟩
          next hallows =>
            exact .inl ⟨_, .exhausted e hr (Bool.eq_false_iff.mpr hallows), by rw [← hp, fail_eq]⟩
    next _ => exact nomatch hp
  next _ => exact nomatch hp

theorem flags_of_finish {i : Nat} {o : Outcome ε} {jitter : Float}
    (hp : p.finish i o jitter = some p') :
    p'.closed = p.closed ∧ p'.cancelled = p.cancelled ∧
      ∃ tally job attempt, p.workers[i]? = some (.running tally job attempt) ∧
        p'.ends = p.ends ++ [(job.ticket, o)] := by
  obtain ⟨tally, job, attempt, hw, hcases⟩ := finish_cases (J := fun _ => True) trivial hp
  have hends := ends_ended p i job.ticket attempt o
  rcases hcases with ⟨fate, -, rfl⟩ | ⟨e, delay, -, -, rfl⟩
  · exact ⟨rfl, rfl, tally, job, attempt, hw, hends⟩
  · exact ⟨rfl, rfl, tally, job, attempt, hw, hends⟩

end Pool
end ImageUpload
