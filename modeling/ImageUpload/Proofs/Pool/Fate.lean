import ImageUpload.Pool.Basic

/-
What becomes of one request.

The attempts at a request are told from the history of the pool alone: `Pool.outcomes` is
what they came to, in order.  All of them but the last call for another attempt, which is
`Request.Tried`, and the last one settles the request, which is `Request.Settles`.
-/

namespace ImageUpload

variable {ω ε : Type}

/-! ## Outcomes -/

def Outcome.isDone : Outcome ε → Bool
  | done => true
  | _ => false

namespace Pool

/-- The end of an attempt with its ticket. -/
def endOf : PoolEvent ε → Option (Nat × Outcome ε)
  | .ended _ ticket _ outcome => some (ticket, outcome)
  | .began _ _ _ => none

/-- All attempts that ended, in the order of their ends. -/
def ends (p : Pool ω ε) : List (Nat × Outcome ε) :=
  p.history.filterMap endOf

/-- What the attempts at one ticket came to. -/
def outcomes (p : Pool ω ε) (ticket : Nat) : List (Outcome ε) :=
  (p.ends.filter (fun e => decide (e.1 = ticket))).map Prod.snd

theorem ends_began (p : Pool ω ε) (i ticket attempt : Nat) :
    (p.record (.began i ticket attempt)).ends = p.ends := by
  unfold ends record
  rw [List.filterMap_append]
  exact List.append_nil _

theorem ends_ended (p : Pool ω ε) (i ticket attempt : Nat) (o : Outcome ε) :
    (p.record (.ended i ticket attempt o)).ends = p.ends ++ [(ticket, o)] := by
  unfold ends record
  rw [List.filterMap_append]
  rfl

theorem outcomes_of_ends {p q : Pool ω ε} (h : q.ends = p.ends) : q.outcomes = p.outcomes := by
  funext ticket
  unfold outcomes
  rw [h]

theorem outcomes_concat {p q : Pool ω ε} {ticket : Nat} {o : Outcome ε}
    (h : q.ends = p.ends ++ [(ticket, o)]) (t : Nat) :
    q.outcomes t = if ticket = t then p.outcomes t ++ [o] else p.outcomes t := by
  unfold outcomes
  rw [h, List.filter_append, List.map_append]
  by_cases ht : ticket = t
  · rw [if_pos ht, List.filter_cons_of_pos (by simpa using ht)]
    rfl
  · rw [if_neg ht, List.filter_cons_of_neg (by simpa using ht)]
    exact List.append_nil _

end Pool

/-! ## Fates -/

inductive Fate (ε : Type) where
  | completed
  | failed (e : AttemptError ε)
  /-- Its worker died over it. -/
  | lost

namespace Request

/-- After an attempt that came to this there is another one. -/
def Repeats (r : Request ω ε) (attempt : Nat) (o : Outcome ε) : Prop :=
  ∃ e, o = .failed e ∧ r.retries e = some true ∧ r.policy.allowsRetry attempt = true

/-- What becomes of a request if its last attempt came to this.  A request may also end
early because the pool is torn down, or because no duration holds the wait before its
next attempt under one of the jitters that were drawn. -/
inductive Ends (J : Float → Prop) (r : Request ω ε) (cancelled : Bool) (attempt : Nat) :
    Outcome ε → Fate ε → Prop where
  | done : Ends J r cancelled attempt .done .completed
  | panicked (payload : PanicPayload) :
    Ends J r cancelled attempt (.panicked payload) (.failed (.panicked payload.message))
  | crashed : Ends J r cancelled attempt .crashed .lost
  | unjudged (e : ε) (h : r.retries e = none) : Ends J r cancelled attempt (.failed e) .lost
  | final (e : ε) (h : r.retries e = some false) :
    Ends J r cancelled attempt (.failed e) (.failed (.failed e))
  | exhausted (e : ε) (h : r.retries e = some true)
    (hattempt : r.policy.allowsRetry attempt = false) :
    Ends J r cancelled attempt (.failed e) (.failed (.failed e))
  | abandoned (e : ε) (h : r.Repeats attempt (.failed e)) (hcancelled : cancelled = true) :
    Ends J r cancelled attempt (.failed e) (.failed (.failed e))
  | overslept (e : ε) (jitter : Float) (h : r.Repeats attempt (.failed e)) (hjitter : J jitter)
    (hdelay : r.policy.delay? attempt jitter = none) : Ends J r cancelled attempt (.failed e) .lost

/-- Every attempt so far calls for another one. -/
def Tried (r : Request ω ε) (outcomes : List (Outcome ε)) : Prop :=
  ∀ k o, outcomes[k]? = some o → r.Repeats (k + 1) o

/-- The attempts of a request from the first to the last, and what became of it. -/
def Settles (J : Float → Prop) (r : Request ω ε) (cancelled : Bool)
    (outcomes : List (Outcome ε)) (attempts : Nat) (fate : Fate ε) : Prop :=
  ∃ before o, outcomes = before ++ [o] ∧ before.length + 1 = attempts ∧ r.Tried before ∧
    r.Ends J cancelled attempts o fate

variable {J : Float → Prop} {r : Request ω ε}

theorem tried_nil : r.Tried [] := fun _ _ h => nomatch h

theorem tried_concat {outcomes : List (Outcome ε)} {o : Outcome ε} (h : r.Tried outcomes)
    (ho : r.Repeats (outcomes.length + 1) o) : r.Tried (outcomes ++ [o]) := by
  intro k o' hk
  by_cases hlt : k < outcomes.length
  · rw [List.getElem?_append_left hlt] at hk
    exact h k o' hk
  · rw [List.getElem?_append_right (by omega)] at hk
    obtain ⟨hlast, rfl⟩ := List.getElem?_eq_some_iff.mp hk
    have hk' : k = outcomes.length := by
      have hone : k - outcomes.length < 1 := hlast
      omega
    subst hk'
    simpa using ho

theorem Ends.mono {cancelled cancelled' : Bool} {attempt : Nat} {o : Outcome ε} {fate : Fate ε}
    (h : r.Ends J cancelled attempt o fate) (hc : cancelled = true → cancelled' = true) :
    r.Ends J cancelled' attempt o fate := by
  cases h with
  | done => exact .done
  | panicked payload => exact .panicked payload
  | crashed => exact .crashed
  | unjudged e h => exact .unjudged e h
  | final e h => exact .final e h
  | exhausted e h hattempt => exact .exhausted e h hattempt
  | abandoned e h hcancelled => exact .abandoned e h (hc hcancelled)
  | overslept e jitter h hjitter hdelay => exact .overslept e jitter h hjitter hdelay

theorem Settles.mono {cancelled cancelled' : Bool} {outcomes : List (Outcome ε)} {attempts : Nat}
    {fate : Fate ε} (h : r.Settles J cancelled outcomes attempts fate)
    (hc : cancelled = true → cancelled' = true) : r.Settles J cancelled' outcomes attempts fate := by
  obtain ⟨before, o, houtcomes, hattempts, htried, hends⟩ := h
  exact ⟨before, o, houtcomes, hattempts, htried, hends.mono hc⟩

/-- A completed request has an attempt that is done. -/
theorem Settles.done_mem {cancelled : Bool} {outcomes : List (Outcome ε)} {attempts : Nat}
    (h : r.Settles J cancelled outcomes attempts .completed) : Outcome.done ∈ outcomes := by
  obtain ⟨before, o, rfl, _, _, hends⟩ := h
  cases hends with
  | done => exact List.mem_append_right _ (List.mem_singleton.mpr rfl)

end Request

/-- A request that is done with. -/
structure Settlement (ω ε : Type) where
  job : Job ω ε
  attempts : Nat
  fate : Fate ε

namespace Settlement

def isCompleted (x : Settlement ω ε) : Bool :=
  match x.fate with
  | .completed => true
  | _ => false

/-- The failure that is published. -/
def failure? (x : Settlement ω ε) : Option (Failure ε) :=
  match x.fate with
  | .failed e => some ⟨x.job.request.id, x.attempts, e⟩
  | _ => none

theorem failure?_eq_some {x : Settlement ω ε} {f : Failure ε} (h : x.failure? = some f) :
    ∃ e, x.fate = .failed e ∧ f = ⟨x.job.request.id, x.attempts, e⟩ := by
  unfold failure? at h
  split at h
  next e hfate =>
    injection h with h
    exact ⟨e, hfate, h.symm⟩
  next _ => exact nomatch h

end Settlement

/-- The tally of a worker that settled these requests. -/
def Tally.of (settled : List (Settlement ω ε)) : Tally :=
  ⟨settled.countP Settlement.isCompleted, (settled.filterMap Settlement.failure?).map Failure.id⟩

/-- A request that is not lost counts once. -/
theorem Tally.length_of {settled : List (Settlement ω ε)} (h : ∀ x ∈ settled, x.fate ≠ .lost) :
    (Tally.of settled).completed + (Tally.of settled).failed.length = settled.length := by
  induction settled with
  | nil => rfl
  | cons x rest ih =>
    obtain ⟨hx, hrest⟩ := List.forall_mem_cons.mp h
    have hcount := ih hrest
    simp only [Tally.of, List.length_map, List.countP_cons, List.filterMap_cons,
      List.length_cons] at hcount ⊢
    cases hfate : x.fate with
    | completed =>
      simp only [Settlement.isCompleted, Settlement.failure?, hfate, if_true]
      omega
    | failed e =>
      simp only [Settlement.isCompleted, Settlement.failure?, hfate, Bool.false_eq_true, if_false,
        List.length_cons]
      omega
    | lost => exact absurd hfate hx

end ImageUpload
