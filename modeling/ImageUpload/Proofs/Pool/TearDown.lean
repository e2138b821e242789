import ImageUpload.Proofs.Pool.Effort

/-
What a teardown makes of the requests.

Once the pool is torn down no attempt begins, so that the history only grows by the ends of
the attempts under way.  A request in the hand of a worker is settled by the attempt it is
at, one that waits for another attempt is settled by the last one it had, and one that nobody
has taken is never settled: `teardown_settles`.
-/

namespace ImageUpload

variable {ω ε : Type}

/-! ## Attempts -/

/-- Nothing but ends comes after the attempts, if no other one begins. -/
theorem attempts_of_ends {w i t n : Nat} {outcomes before : List (Outcome ε)}
    {ends : List (PoolEvent ε)}
    (h : attempts w t n outcomes = attempts i t n before ++ ends)
    (hends : ∀ e ∈ ends, e.isEnd = true) : ends = [] ∧ outcomes = before := by
  induction before generalizing n outcomes with
  | nil =>
    cases outcomes with
    | nil => exact ⟨h.symm, rfl⟩
    | cons o rest =>
      have hbegins : ends = .began w t n :: .ended w t n o :: attempts w t (n + 1) rest := h.symm
      exact nomatch hends (.began w t n) (hbegins ▸ List.mem_cons_self)
  | cons b before ih =>
    cases outcomes with
    | nil => exact nomatch h
    | cons o rest =>
      obtain ⟨hbegan, htail⟩ := List.cons.inj h
      obtain ⟨hended, hrest⟩ := List.cons.inj htail
      obtain ⟨-, -, -, ho⟩ := PoolEvent.ended.inj hended
      obtain ⟨hnil, hbefore⟩ := ih hrest
      exact ⟨hnil, by rw [ho, hbefore]⟩

/-- An attempt that is under way ends, if no other one begins. -/
theorem attempts_of_began {w i t n m : Nat} {outcomes before : List (Outcome ε)}
    {ends : List (PoolEvent ε)}
    (h : attempts w t n outcomes = attempts i t n before ++ .began i t m :: ends)
    (hends : ∀ e ∈ ends, e.isEnd = true) :
    ∃ o, ends = [.ended i t m o] ∧ outcomes = before ++ [o] := by
  induction before generalizing n outcomes with
  | nil =>
    cases outcomes with
    | nil => exact nomatch h
    | cons o rest =>
      obtain ⟨hbegan, htail⟩ := List.cons.inj h
      obtain ⟨rfl, -, rfl⟩ := PoolEvent.began.inj hbegan
      cases rest with
      | nil => exact ⟨o, htail.symm, rfl⟩
      | cons o' rest =>
        refine nomatch hends (.began w t (n + 1)) ?_
        rw [← htail]
        exact List.mem_cons_of_mem _ List.mem_cons_self
  | cons b before ih =>
    cases outcomes with
    | nil => exact nomatch h
    | cons o rest =>
      obtain ⟨hbegan, htail⟩ := List.cons.inj h
      obtain ⟨hended, hrest⟩ := List.cons.inj htail
      obtain ⟨-, -, -, ho⟩ := PoolEvent.ended.inj hended
      obtain ⟨o', hnew, hbefore⟩ := ih hrest
      exact ⟨o', hnew, by rw [ho, hbefore, List.cons_append]⟩

namespace PoolAction

end PoolAction

namespace Pool

variable {p p₀ : Pool ω ε} {sent sent₀ : List (Request ω ε)} {script : Nat → Nat → Outcome ε}
  {ends : List (PoolEvent ε)}

/-! ## Requests -/

theorem eventsOf_append (hends : p.history = p₀.history ++ ends) (t : Nat) :
    p.eventsOf t = p₀.eventsOf t ++ ends.filter fun e => decide (e.ticket = t) := by
  unfold eventsOf
  rw [hends, List.filter_append]

/-- A request that nobody has in hand stays as it is. -/
theorem Reached.rested (h : p.Reached script sent) (hgone : p.gone = true)
    (hends : p.history = p₀.history ++ ends) (hall : ∀ e ∈ ends, e.isEnd = true) {i t : Nat}
    (hevents : p₀.eventsOf t = attempts i t 1 (p₀.outcomes t)) :
    p.eventsOf t = p₀.eventsOf t ∧ p.outcomes t = p₀.outcomes t := by
  obtain ⟨w, htraces⟩ := h.recorded.rest t (unheld_of_gone hgone t)
  have hmore := eventsOf_append hends t
  rw [htraces, hevents] at hmore
  obtain ⟨hnil, houtcomes⟩ := attempts_of_ends hmore fun e he => hall e (List.mem_filter.mp he).1
  rw [eventsOf_append hends t, hnil, List.append_nil]
  exact ⟨rfl, houtcomes⟩

/-- An attempt that is under way is the last one at its request. -/
theorem Reached.ran_out (h : p.Reached script sent) (hgone : p.gone = true)
    (h₀ : p₀.Reached script sent₀)
    (hends : p.history = p₀.history ++ ends) (hall : ∀ e ∈ ends, e.isEnd = true) {i : Nat}
    {tally : Tally} {job : Job ω ε} {n : Nat}
    (hw : p₀.workers[i]? = some (.running tally job n)) :
    p.eventsOf job.ticket =
        p₀.eventsOf job.ticket ++ [.ended i job.ticket n (script job.ticket n)] ∧
      p.settlement? job = some ⟨job, n, .ofOutcome (script job.ticket n)⟩ := by
  obtain ⟨w, htraces⟩ := h.recorded.rest job.ticket (unheld_of_gone hgone job.ticket)
  have hheld : p₀.eventsOf job.ticket =
      attempts i job.ticket 1 (p₀.outcomes job.ticket) ++ [.began i job.ticket n] :=
    h₀.recorded.held i _ hw
  have hmore := eventsOf_append hends job.ticket
  rw [htraces, hheld, List.append_assoc] at hmore
  obtain ⟨o, hnew, houtcomes⟩ :=
    attempts_of_began hmore fun e he => hall e (List.mem_filter.mp he).1
  obtain ⟨desks, hacc⟩ := h₀.accounts
  obtain ⟨settled, -, hlength, -⟩ := hacc.agrees_at hw
  have ho : o = script job.ticket n := by
    rw [← hlength]
    refine h.follows.outcome h.recorded ?_
    rw [houtcomes]
    exact List.getElem?_concat_length
  rw [← ho]
  constructor
  · rw [eventsOf_append hends job.ticket]
    exact congrArg _ hnew
  · unfold settlement?
    rw [houtcomes, List.getLast?_concat, List.length_append, List.length_singleton, hlength,
      Option.map_some]

/-- A request that waits for another attempt gets none. -/
theorem Reached.given_up (h : p.Reached script sent) (hgone : p.gone = true)
    (h₀ : p₀.Reached script sent₀)
    (hends : p.history = p₀.history ++ ends) (hall : ∀ e ∈ ends, e.isEnd = true) {i : Nat}
    {tally : Tally} {job : Job ω ε} {n : Nat} {e : ε} {delay : Duration}
    (hw : p₀.workers[i]? = some (.waiting tally job n e delay)) :
    p.eventsOf job.ticket = p₀.eventsOf job.ticket ∧
      p.settlement? job = some ⟨job, n, .failed (.failed e)⟩ := by
  have hheld : p₀.eventsOf job.ticket = attempts i job.ticket 1 (p₀.outcomes job.ticket) :=
    h₀.recorded.held i _ hw
  obtain ⟨hevents, houtcomes⟩ := h.rested hgone hends hall hheld
  obtain ⟨desks, hacc⟩ := h₀.accounts
  obtain ⟨settled, -, hlength, -, hlast⟩ := hacc.agrees_at hw
  refine ⟨hevents, ?_⟩
  unfold settlement?
  rw [houtcomes, hlast, hlength]
  rfl

/-- A request has met with its fate exactly if it has been attempted. -/
theorem Reached.isSome_settlement? (h : p.Reached script sent) (hgone : p.gone = true)
    (job : Job ω ε) : (p.settlement? job).isSome = !(p.eventsOf job.ticket).isEmpty := by
  obtain ⟨w, htraces⟩ := h.recorded.rest job.ticket (unheld_of_gone hgone job.ticket)
  unfold settlement?
  rw [htraces, Option.isSome_map]
  cases p.outcomes job.ticket with
  | nil => rfl
  | cons o rest =>
    rw [List.getLast?_cons]
    rfl

/-- Without a beginning there is no end. -/
theorem Reached.eventsOf_eq_nil (h : p.Reached script sent)
    (hends : p.history = p₀.history ++ ends) (hall : ∀ e ∈ ends, e.isEnd = true) {t : Nat}
    (hnone : p₀.eventsOf t = []) : p.eventsOf t = [] := by
  obtain ⟨w, tail, htraces, htail⟩ := h.recorded.exists_attempts t
  have hmore := eventsOf_append hends t
  rw [hnone, List.nil_append] at hmore
  have hevents : ∀ e ∈ p.eventsOf t, e.isEnd = true := by
    intro e he
    rw [hmore] at he
    exact hall e (List.mem_filter.mp he).1
  rw [htraces] at hevents ⊢
  cases houtcomes : p.outcomes t with
  | nil =>
    rw [houtcomes] at hevents
    refine List.eq_nil_iff_forall_not_mem.mpr fun e he => ?_
    exact nomatch (htail e he).symm.trans (hevents e he)
  | cons o rest =>
    rw [houtcomes] at hevents
    exact nomatch hevents (.began w t 1) List.mem_cons_self

/-! ## The whole run -/

/-- What has become of the requests when no worker is left, after a teardown at `p₀`. -/
structure TornDown (script : Nat → Nat → Outcome ε) (sent : List (Request ω ε))
    (p₀ p : Pool ω ε) : Prop where
  running : ∀ (i : Nat) tally job n, p₀.workers[i]? = some (.running tally job n) →
    p.eventsOf job.ticket =
        p₀.eventsOf job.ticket ++ [.ended i job.ticket n (script job.ticket n)] ∧
      p.settlement? job = some ⟨job, n, .ofOutcome (script job.ticket n)⟩
  waiting : ∀ (i : Nat) tally job n e delay, p₀.workers[i]? = some (.waiting tally job n e delay) →
    p.eventsOf job.ticket = p₀.eventsOf job.ticket ∧
      p.settlement? job = some ⟨job, n, .failed (.failed e)⟩
  settled : ∀ job, p₀.Unheld job.ticket →
    p.eventsOf job.ticket = p₀.eventsOf job.ticket ∧ p.settlement? job = p₀.settlement? job
  untaken : ∀ job, p₀.eventsOf job.ticket = [] →
    p.eventsOf job.ticket = [] ∧ p.settlement? job = none
  started : (p.settlements sent).length =
    (numbered sent).countP fun job => !(p.eventsOf job.ticket).isEmpty
  /-- For each worker that died, one of them is missing. -/
  missed : p.report.completed + p.report.failed.length + p.report.lostWorkers ≤
    (p.settlements sent).length

theorem Reached.tornDown (h : p.Reached script sent) (hgone : p.gone = true)
    (h₀ : p₀.Reached script sent₀)
    (hends : p.history = p₀.history ++ ends) (hall : ∀ e ∈ ends, e.isEnd = true) :
    TornDown script sent p₀ p := by
  refine ⟨fun i tally job n hw => h.ran_out hgone h₀ hends hall hw,
    fun i tally job n e delay hw => h.given_up hgone h₀ hends hall hw, fun job hjob => ?_,
    fun job hnone => ?_, ?_, ?_⟩
  · obtain ⟨i, hevents⟩ := h₀.recorded.rest job.ticket hjob
    obtain ⟨hevents', houtcomes⟩ := h.rested hgone hends hall hevents
    refine ⟨hevents', ?_⟩
    unfold settlement?
    rw [houtcomes]
  · have hevents := h.eventsOf_eq_nil hends hall hnone
    refine ⟨hevents, Option.isNone_iff_eq_none.mp (Option.isSome_eq_false_iff.mp ?_)⟩
    rw [h.isSome_settlement? hgone, hevents]
    rfl
  · unfold settlements
    rw [List.length_filterMap_eq_countP]
    congr 1
    funext job
    exact h.isSome_settlement? hgone job
  · obtain ⟨desks, hacc⟩ := h.accounts
    exact hacc.report_add_lost_le hgone

end Pool
end ImageUpload
