import ImageUpload.Proofs.Pool.Account

/-
What the history tells of each request.

The attempts at a request are made by one worker, one after another and numbered from one,
`attempts`.  Between two attempts its events are these and no others, and during an attempt
its beginning stands after them: `Recorded`.  Every action keeps that, `recorded_act`, since
it adds events of the request that its own worker has in hand, and nobody else has it.
-/

namespace ImageUpload

variable {ω ε : Type} {J : Float → Prop}

/-- The request that an event is about. -/
def PoolEvent.ticket : PoolEvent ε → Nat
  | began _ ticket _ => ticket
  | ended _ ticket _ _ => ticket

/-- An attempt is over with this. -/
def PoolEvent.isEnd : PoolEvent ε → Bool
  | began .. => false
  | ended .. => true

/-- The attempts of one worker at one request, each of them begun and ended. -/
def attempts (i ticket : Nat) : (attempt : Nat) → List (Outcome ε) → List (PoolEvent ε)
  | _, [] => []
  | n, o :: rest => .began i ticket n :: .ended i ticket n o :: attempts i ticket (n + 1) rest

theorem attempts_concat (i ticket n : Nat) (outcomes : List (Outcome ε)) (o : Outcome ε) :
    attempts i ticket n (outcomes ++ [o]) = attempts i ticket n outcomes ++
      [.began i ticket (n + outcomes.length), .ended i ticket (n + outcomes.length) o] := by
  induction outcomes generalizing n with
  | nil => rfl
  | cons a rest ih =>
    show PoolEvent.began i ticket n :: .ended i ticket n a :: attempts i ticket (n + 1) (rest ++ [o]) = _
    rw [ih, List.length_cons, Nat.add_right_comm n 1, Nat.add_assoc n]
    rfl

namespace Pool

/-- The events of one request. -/
def eventsOf (p : Pool ω ε) (ticket : Nat) : List (PoolEvent ε) :=
  p.history.filter fun e => decide (e.ticket = ticket)

theorem eventsOf_record (p : Pool ω ε) (e : PoolEvent ε) (t : Nat) :
    (p.record e).eventsOf t = if e.ticket = t then p.eventsOf t ++ [e] else p.eventsOf t := by
  unfold eventsOf record
  rw [List.filter_append]
  by_cases ht : e.ticket = t
  · rw [if_pos ht, List.filter_cons_of_pos (by simpa using ht)]
    rfl
  · rw [if_neg ht, List.filter_cons_of_neg (by simpa using ht)]
    exact List.append_nil _

/-- The events of the request that a worker has in hand are those of its own attempts. -/
def Traces (p : Pool ω ε) (i : Nat) : Worker ω ε → Prop
  | .running _ job attempt => p.eventsOf job.ticket =
      attempts i job.ticket 1 (p.outcomes job.ticket) ++ [.began i job.ticket attempt]
  | .waiting _ job _ _ _ => p.eventsOf job.ticket = attempts i job.ticket 1 (p.outcomes job.ticket)
  | _ => True

/-- Nobody has the request in hand. -/
def Unheld (p : Pool ω ε) (ticket : Nat) : Prop :=
  ∀ (i : Nat) (w : Worker ω ε), p.workers[i]? = some w → ∀ job ∈ w.held, job.ticket ≠ ticket

/-- The events of every request are the attempts of one worker. -/
structure Recorded (p : Pool ω ε) : Prop where
  held : ∀ (i : Nat) (w : Worker ω ε), p.workers[i]? = some w → p.Traces i w
  rest : ∀ t, p.Unheld t → ∃ i, p.eventsOf t = attempts i t 1 (p.outcomes t)

theorem recorded_start (parallelism capacity : Nat) :
    (start parallelism capacity : Pool ω ε).Recorded := by
  refine ⟨fun i w hw => ?_, fun t _ => ⟨0, rfl⟩⟩
  have hidle := (List.mem_replicate.mp (List.mem_of_getElem? hw)).2
  rw [hidle]
  trivial

variable {p p' : Pool ω ε} {sent : List (Request ω ε)} {desks : List (Desk ω ε)}

/-- The events of a request are attempts of one worker that have ended, and maybe one under way. -/
theorem Recorded.eventsOf_cases (h : p.Recorded) (t : Nat) :
    ∃ i, p.eventsOf t = attempts i t 1 (p.outcomes t) ∨
      ∃ tally job attempt, p.workers[i]? = some (.running tally job attempt) ∧ job.ticket = t ∧
        p.eventsOf t = attempts i t 1 (p.outcomes t) ++ [.began i t attempt] := by
  by_cases ht : p.Unheld t
  · obtain ⟨i, hevents⟩ := h.rest t ht
    exact ⟨i, .inl hevents⟩
  · obtain ⟨i, w, hw, job, hjob, rfl⟩ : ∃ (i : Nat) (w : Worker ω ε), p.workers[i]? = some w ∧
        ∃ job ∈ w.held, job.ticket = t := by
      simpa [Unheld] using ht
    have htraces := h.held i w hw
    cases w with
    | running tally job' attempt =>
      obtain rfl := List.mem_singleton.mp hjob
      exact ⟨i, .inr ⟨tally, job, attempt, hw, rfl, htraces⟩⟩
    | waiting tally job' attempt e delay =>
      obtain rfl := List.mem_singleton.mp hjob
      exact ⟨i, .inl htraces⟩
    | idle | left | dead => exact absurd hjob List.not_mem_nil

/-! ## What is added -/

/-- A move begins an attempt at most, and none once the pool is torn down. -/
theorem Moves.history (h : p.Moves p') :
    ∃ new, p'.history = p.history ++ new ∧ ∀ e ∈ new, e.isEnd = false ∧ p.cancelled = false := by
  cases h with
  | take i tally job rest hw hq hcancelled =>
    exact ⟨[.began i job.ticket 1], rfl, by simp [PoolEvent.isEnd, hcancelled]⟩
  | wake i tally job attempt e delay hw hcancelled =>
    exact ⟨[.began i job.ticket (attempt + 1)], rfl, by simp [PoolEvent.isEnd, hcancelled]⟩
  | abandon i tally job attempt e delay hw hcancelled => exact ⟨[], (List.append_nil _).symm, nofun⟩
  | leave i tally hw hidle => exact ⟨[], (List.append_nil _).symm, nofun⟩

theorem history_of_finish {i : Nat} {o : Outcome ε} {jitter : Float}
    (hp : p.finish i o jitter = some p') :
    ∃ tally job attempt, p.workers[i]? = some (.running tally job attempt) ∧
      p'.history = p.history ++ [.ended i job.ticket attempt o] := by
  obtain ⟨tally, job, attempt, hw, hcases⟩ := finish_cases (J := fun _ => True) trivial hp
  refine ⟨tally, job, attempt, hw, ?_⟩
  rcases hcases with ⟨fate, -, rfl⟩ | ⟨e, delay, -, -, rfl⟩ <;> rfl

/-- The history only grows, and by ends of attempts once the pool is torn down. -/
theorem history_act {a : PoolAction ω ε} (hp : p.act a = some p') :
    ∃ new, p'.history = p.history ++ new ∧
      (p.cancelled = true → ∀ e ∈ new, e.isEnd = true) ∧
      (p.cancelled = true → p'.cancelled = true) := by
  have move : p.Moves p' → ∃ new, p'.history = p.history ++ new ∧
      (p.cancelled = true → ∀ e ∈ new, e.isEnd = true) ∧
      (p.cancelled = true → p'.cancelled = true) := by
    intro hmoves
    obtain ⟨new, hnew, hbegan⟩ := hmoves.history
    refine ⟨new, hnew, fun hcancelled e he => ?_, fun hcancelled => hmoves.flags.2.1.trans hcancelled⟩
    exact nomatch hcancelled.symm.trans (hbegan e he).2
  cases a with
  | send r =>
    rw [send_eq hp]
    exact ⟨[], (List.append_nil _).symm, fun _ => nofun, id⟩
  | close =>
    injection hp with hp
    exact hp ▸ ⟨[], (List.append_nil _).symm, fun _ => nofun, id⟩
  | tearDown =>
    injection hp with hp
    exact hp ▸ ⟨[], (List.append_nil _).symm, fun _ => nofun, fun _ => rfl⟩
  | finish i o jitter =>
    obtain ⟨tally, job, attempt, -, hnew⟩ := history_of_finish hp
    refine ⟨_, hnew, fun _ e he => ?_, fun hcancelled => (flags_of_finish hp).2.1.trans hcancelled⟩
    rw [List.mem_singleton.mp he]
    rfl
  | take i => exact move (moves_of_take hp)
  | wake i => exact move (moves_of_wake hp)
  | abandon i => exact move (moves_of_abandon hp)
  | leave i => exact move (moves_of_leave hp)

theorem history_run {actions : List (PoolAction ω ε)} (hp : p.run actions = some p') :
    ∃ new, p'.history = p.history ++ new ∧
      (p.cancelled = true → ∀ e ∈ new, e.isEnd = true) ∧
      (p.cancelled = true → p'.cancelled = true) := by
  induction actions generalizing p with
  | nil =>
    injection hp with hp
    exact hp ▸ ⟨[], (List.append_nil _).symm, fun _ => nofun, id⟩
  | cons a rest ih =>
    obtain ⟨q, hq, hp⟩ := Option.bind_eq_some_iff.mp hp
    obtain ⟨new₁, hnew₁, hends₁, hstays₁⟩ := history_act hq
    obtain ⟨new₂, hnew₂, hends₂, hstays₂⟩ := ih hp
    refine ⟨new₁ ++ new₂, ?_, fun hcancelled e he => ?_, fun hcancelled => hstays₂ (hstays₁ hcancelled)⟩
    · rw [hnew₂, hnew₁, List.append_assoc]
    · rcases List.mem_append.mp he with he | he
      · exact hends₁ hcancelled e he
      · exact hends₂ (hstays₁ hcancelled) e he

/-! ## One request, one worker -/

/-- The desk of a worker, by its place. -/
theorem Accounts.getElem?_desk (h : p.Accounts J sent desks) {i : Nat} {w : Worker ω ε}
    (hw : p.workers[i]? = some w) : ∃ d, desks[i]? = some d ∧ d.worker = w := by
  rw [h.workers, List.getElem?_map] at hw
  exact Option.map_eq_some_iff.mp hw

theorem unheld_of_gone (hgone : p.gone = true) (t : Nat) : p.Unheld t := by
  intro i w hw job hjob
  have hwgone := gone_of_getElem? hgone hw
  cases w with
  | running tally job' attempt => exact nomatch hwgone
  | waiting tally job' attempt e delay => exact nomatch hwgone
  | idle | left | dead => exact nomatch hjob

/-- A request is in the hand of one worker only. -/
theorem Accounts.held_apart (h : p.Accounts J sent desks) {i j : Nat} {v w : Worker ω ε}
    (hv : p.workers[i]? = some v) (hw : p.workers[j]? = some w) (hij : j ≠ i) :
    ∀ job ∈ v.held, ∀ job' ∈ w.held, job'.ticket ≠ job.ticket := by
  intro job hjob job' hjob' heq
  obtain ⟨pre, d, post, rfl, rfl, rfl⟩ := h.desk_of hv
  obtain ⟨e, he, rfl⟩ := h.getElem?_desk hw
  have hside : e ∈ pre ∨ e ∈ post := by
    rcases Nat.lt_or_gt_of_ne hij with hlt | hgt
    · rw [List.getElem?_append_left hlt] at he
      exact .inl (List.mem_of_getElem? he)
    · rw [List.getElem?_append_right (Nat.le_of_lt hgt)] at he
      obtain ⟨n, hn⟩ : ∃ n, j - pre.length = n + 1 := ⟨j - pre.length - 1, by omega⟩
      rw [hn, List.getElem?_cons_succ] at he
      exact .inr (List.mem_of_getElem? he)
  exact ticket_ne (nodup_of_perm h.jobs) hside (List.mem_append_left _ hjob)
    (List.mem_append_left _ hjob') heq.symm

theorem Accounts.agrees_at (h : p.Accounts J sent desks) {i : Nat} {w : Worker ω ε}
    (hw : p.workers[i]? = some w) : ∃ settled, w.Agrees p.outcomes settled := by
  obtain ⟨d, hd, rfl⟩ := h.getElem?_desk hw
  exact ⟨d.settled, h.agrees d (List.mem_of_getElem? hd)⟩

/-- A request that waits in the queue is in nobody's hand. -/
theorem Accounts.unheld_of_mem_queue (h : p.Accounts J sent desks) {job : Job ω ε}
    (hjob : job ∈ p.queue) : p.Unheld job.ticket := by
  intro i w hw job' hjob' heq
  obtain ⟨d, hd, rfl⟩ := h.getElem?_desk hw
  have hnodup := nodup_of_perm h.jobs
  rw [List.map_append, List.nodup_append] at hnodup
  exact hnodup.2.2 _ (List.mem_map_of_mem hjob) _ (List.mem_map_of_mem
    (List.mem_flatMap.mpr ⟨d, List.mem_of_getElem? hd, List.mem_append_left _ hjob'⟩)) heq.symm

/-! ## What keeps the record -/

theorem traces_of_eq {i : Nat} {w : Worker ω ε} (h : p.Traces i w)
    (hsame : ∀ job ∈ w.held, p'.eventsOf job.ticket = p.eventsOf job.ticket ∧
      p'.outcomes job.ticket = p.outcomes job.ticket) : p'.Traces i w := by
  cases w with
  | running tally job attempt =>
    obtain ⟨hevents, houtcomes⟩ := hsame job (List.mem_singleton.mpr rfl)
    simp only [Traces] at h ⊢
    rw [hevents, houtcomes]
    exact h
  | waiting tally job attempt e delay =>
    obtain ⟨hevents, houtcomes⟩ := hsame job (List.mem_singleton.mpr rfl)
    simp only [Traces] at h ⊢
    rw [hevents, houtcomes]
    exact h
  | idle tally => trivial
  | left tally => trivial
  | dead => trivial

/-- What one worker does is told in events of the one request `job`, which it has in hand
before or after and nobody else has. -/
theorem Recorded.replace (h : p.Recorded) (w' : Worker ω ε) (job : Job ω ε) {i : Nat}
    {w : Worker ω ε} (hw : p.workers[i]? = some w) (hworkers : p'.workers = p.workers.set i w')
    (hheld : ∀ j ∈ w.held ++ w'.held, j = job)
    (hothers : ∀ t, job.ticket ≠ t → p'.eventsOf t = p.eventsOf t ∧ p'.outcomes t = p.outcomes t)
    (hapart : ∀ (j : Nat) (v : Worker ω ε), j ≠ i → p.workers[j]? = some v →
      ∀ job' ∈ v.held, job'.ticket ≠ job.ticket)
    (hnew : p'.Traces i w')
    (hdone : w'.held = [] → p'.eventsOf job.ticket =
      attempts i job.ticket 1 (p'.outcomes job.ticket)) : p'.Recorded := by
  have hi : i < p.workers.length := (List.getElem?_eq_some_iff.mp hw).1
  have hown : p'.workers[i]? = some w' := by
    rw [hworkers, List.getElem?_set_self hi]
  have helse : ∀ {j : Nat}, j ≠ i → p'.workers[j]? = p.workers[j]? := by
    intro j hj
    rw [hworkers, List.getElem?_set_ne (Ne.symm hj)]
  constructor
  · intro j v hv
    by_cases hj : j = i
    · rw [hj, hown] at hv
      injection hv with hv
      rw [hj, ← hv]
      exact hnew
    · rw [helse hj] at hv
      exact traces_of_eq (h.held j v hv) fun job' hjob' =>
        hothers _ fun heq => hapart j v hj hv job' hjob' heq.symm
  · intro t ht
    by_cases htj : job.ticket = t
    · subst htj
      refine ⟨i, hdone (List.eq_nil_iff_forall_not_mem.mpr fun j hj => ?_)⟩
      refine ht i w' hown j hj ?_
      rw [hheld j (List.mem_append_right _ hj)]
    · obtain ⟨hevents, houtcomes⟩ := hothers t htj
      rw [hevents, houtcomes]
      refine h.rest t fun j v hv j' hj' => ?_
      by_cases hj : j = i
      · rw [hj, hw] at hv
        injection hv with hv
        rw [hheld j' (List.mem_append_left _ (hv ▸ hj'))]
        exact htj
      · exact ht j v ((helse hj).trans hv) j' hj'

theorem Recorded.take (h : p.Recorded) (hacc : p.Accounts J sent desks) {i : Nat} {tally : Tally}
    {job : Job ω ε} {rest : List (Job ω ε)} (hw : p.workers[i]? = some (.idle tally))
    (hq : p.queue = job :: rest) :
    ((({ p with queue := rest } : Pool ω ε).setWorker i (.running tally job 1)).record
      (.began i job.ticket 1)).Recorded := by
  have hjob : job ∈ p.queue := hq ▸ List.mem_cons_self
  have houtcomes := outcomes_of_ends (ends_began p i job.ticket 1)
  refine h.replace (.running tally job 1) job hw rfl (by simp [Worker.held])
    (fun t ht => ⟨?_, congrFun houtcomes t⟩) ?_ ?_ (fun hnil => nomatch hnil)
  · exact (eventsOf_record p _ t).trans (if_neg ht)
  · intro j v _ hv job' hjob'
    exact hacc.unheld_of_mem_queue hjob j v hv job' hjob'
  · obtain ⟨j, hevents⟩ := h.rest job.ticket (hacc.unheld_of_mem_queue hjob)
    show (p.record _).eventsOf job.ticket = attempts i job.ticket 1 ((p.record _).outcomes job.ticket) ++ _
    rw [houtcomes, eventsOf_record, hevents, hacc.outcomes_of_mem_queue hjob]
    exact if_pos rfl

theorem Recorded.wake (h : p.Recorded) (hacc : p.Accounts J sent desks) {i : Nat} {tally : Tally}
    {job : Job ω ε} {attempt : Nat} {e : ε} {delay : Duration}
    (hw : p.workers[i]? = some (.waiting tally job attempt e delay)) :
    ((p.setWorker i (.running tally job (attempt + 1))).record
      (.began i job.ticket (attempt + 1))).Recorded := by
  have houtcomes := outcomes_of_ends (ends_began p i job.ticket (attempt + 1))
  refine h.replace (.running tally job (attempt + 1)) job hw rfl
    (by simp [Worker.held]) (fun t ht => ⟨?_, congrFun houtcomes t⟩) ?_ ?_ (fun hnil => nomatch hnil)
  · exact (eventsOf_record p _ t).trans (if_neg ht)
  · intro j v hj hv
    exact hacc.held_apart hw hv hj job (List.mem_singleton.mpr rfl)
  · have hevents : p.eventsOf job.ticket = attempts i job.ticket 1 (p.outcomes job.ticket) :=
      h.held i _ hw
    show (p.record _).eventsOf job.ticket = attempts i job.ticket 1 ((p.record _).outcomes job.ticket) ++ _
    rw [houtcomes, eventsOf_record, hevents]
    exact if_pos rfl

theorem Recorded.abandon (h : p.Recorded) (hacc : p.Accounts J sent desks) {i : Nat}
    {tally : Tally} {job : Job ω ε} {attempt : Nat} {e : ε} {delay : Duration}
    (hw : p.workers[i]? = some (.waiting tally job attempt e delay)) :
    (p.fail i tally job attempt (.failed e)).Recorded := by
  refine h.replace _ job hw rfl (by simp [Worker.held]) (fun t _ => ⟨rfl, rfl⟩) ?_ trivial
    (fun _ => h.held i _ hw)
  intro j v hj hv
  exact hacc.held_apart hw hv hj job (List.mem_singleton.mpr rfl)

theorem Recorded.leave (h : p.Recorded) {i : Nat} {tally : Tally}
    (hw : p.workers[i]? = some (.idle tally)) : (p.setWorker i (.left tally)).Recorded := by
  have hi : i < p.workers.length := (List.getElem?_eq_some_iff.mp hw).1
  have hown : (p.setWorker i (.left tally)).workers[i]? = some (.left tally) :=
    List.getElem?_set_self hi
  have helse : ∀ {j : Nat}, j ≠ i → (p.setWorker i (.left tally)).workers[j]? = p.workers[j]? :=
    fun hj => List.getElem?_set_ne (Ne.symm hj)
  constructor
  · intro j v hv
    by_cases hj : j = i
    · rw [hj, hown] at hv
      injection hv with hv
      rw [← hv]
      trivial
    · exact traces_of_eq (h.held j v ((helse hj).symm.trans hv)) fun _ _ => ⟨rfl, rfl⟩
  · intro t ht
    refine h.rest t fun j v hv job hjob => ?_
    by_cases hj : j = i
    · rw [hj, hw] at hv
      injection hv with hv
      rw [← hv] at hjob
      exact nomatch hjob
    · exact ht j v ((helse hj).trans hv) job hjob

theorem Recorded.move (h : p.Recorded) (hacc : p.Accounts J sent desks) (hp : p.Moves p') :
    p'.Recorded := by
  cases hp with
  | take i tally job rest hw hq hcancelled => exact h.take hacc hw hq
  | wake i tally job attempt e delay hw hcancelled => exact h.wake hacc hw
  | abandon i tally job attempt e delay hw hcancelled => exact h.abandon hacc hw
  | leave i tally hw hidle => exact h.leave hw

theorem Recorded.finish (h : p.Recorded) (hacc : p.Accounts J sent desks) {i : Nat}
    {o : Outcome ε} {jitter : Float} (hp : p.finish i o jitter = some p') : p'.Recorded := by
  obtain ⟨tally, job, attempt, hw, hcases⟩ := finish_cases (J := fun _ => True) trivial hp
  have hends := ends_ended p i job.ticket attempt o
  have hheld : p.eventsOf job.ticket =
      attempts i job.ticket 1 (p.outcomes job.ticket) ++ [.began i job.ticket attempt] :=
    h.held i _ hw
  have hattempt : 1 + (p.outcomes job.ticket).length = attempt := by
    obtain ⟨settled, -, hlength, -⟩ := hacc.agrees_at hw
    rw [Nat.add_comm]
    exact hlength
  -- the attempt has its end now
  have hown : (p.record (.ended i job.ticket attempt o)).eventsOf job.ticket =
      attempts i job.ticket 1 ((p.record (.ended i job.ticket attempt o)).outcomes job.ticket) := by
    rw [outcomes_concat hends, if_pos rfl, attempts_concat, hattempt, eventsOf_record, hheld,
      List.append_assoc]
    exact if_pos rfl
  have hothers : ∀ t, job.ticket ≠ t →
      (p.record (.ended i job.ticket attempt o)).eventsOf t = p.eventsOf t ∧
        (p.record (.ended i job.ticket attempt o)).outcomes t = p.outcomes t := fun t ht =>
    ⟨(eventsOf_record p _ t).trans (if_neg ht), (outcomes_concat hends t).trans (if_neg ht)⟩
  have hapart : ∀ (j : Nat) (v : Worker ω ε), j ≠ i → p.workers[j]? = some v →
      ∀ job' ∈ v.held, job'.ticket ≠ job.ticket := fun j v hj hv =>
    hacc.held_apart hw hv hj job (List.mem_singleton.mpr rfl)
  rcases hcases with ⟨fate, -, rfl⟩ | ⟨e, delay, -, -, rfl⟩
  · have hafter : (Worker.after tally job.request.id fate : Worker ω ε).held = [] := by
      cases fate <;> rfl
    refine h.replace _ job hw rfl ?_ hothers hapart ?_ (fun _ => hown)
    · rw [hafter]
      simp [Worker.held]
    · cases fate <;> trivial
  · exact h.replace (.waiting tally job attempt e delay) job hw rfl
      (by simp [Worker.held]) hothers hapart hown (fun hnil => nomatch hnil)

theorem recorded_act {a : PoolAction ω ε} (h : p.Recorded) (hacc : p.Accounts J sent desks)
    (hp : p.act a = some p') : p'.Recorded := by
  cases a with
  | send r =>
    rw [send_eq hp]
    exact ⟨h.held, h.rest⟩
  | close =>
    injection hp with hp
    exact hp ▸ ⟨h.held, h.rest⟩
  | tearDown =>
    injection hp with hp
    exact hp ▸ ⟨h.held, h.rest⟩
  | take i => exact h.move hacc (moves_of_take hp)
  | finish i o jitter => exact h.finish hacc hp
  | wake i => exact h.move hacc (moves_of_wake hp)
  | abandon i => exact h.move hacc (moves_of_abandon hp)
  | leave i => exact h.move hacc (moves_of_leave hp)

end Pool
end ImageUpload
