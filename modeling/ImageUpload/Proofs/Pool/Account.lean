import ImageUpload.Proofs.Pool.Action

/-
Where every request of a pool is.

A request that was accepted waits in the queue, is held by one worker, or is settled, and
it is in one of these places only.  `Accounts` says so of a pool: `desks` are the workers,
each with the requests it has settled, which the pool itself does not keep.  Every action
keeps the account, `accounts_act`.
-/

namespace ImageUpload

variable {ω ε : Type} {J : Float → Prop}

/-! ## Workers -/

/-- The tally is that of these requests, and none of them is lost. -/
def Tally.Sums (tally : Tally) (settled : List (Settlement ω ε)) : Prop :=
  tally = .of settled ∧ ∀ x ∈ settled, x.fate ≠ .lost

namespace Worker

/-- The request that a worker has in hand. -/
def held : Worker ω ε → List (Job ω ε)
  | running _ job _ => [job]
  | waiting _ job _ _ _ => [job]
  | _ => []

/-- The worker is where the requests it settled and the attempts at the one in its hand
have brought it. -/
def Agrees (outcomes : Nat → List (Outcome ε)) (settled : List (Settlement ω ε)) :
    Worker ω ε → Prop
  | idle tally => tally.Sums settled
  | running tally job attempt => tally.Sums settled ∧
    (outcomes job.ticket).length + 1 = attempt ∧ job.request.Tried (outcomes job.ticket)
  | waiting tally job attempt e _ => tally.Sums settled ∧
    (outcomes job.ticket).length = attempt ∧ job.request.Tried (outcomes job.ticket) ∧
    (outcomes job.ticket).getLast? = some (.failed e)
  | left tally => tally.Sums settled
  | dead => ∃ x ∈ settled, x.fate = .lost

theorem agrees_after {outcomes : Nat → List (Outcome ε)} {settled : List (Settlement ω ε)}
    {tally : Tally} (h : tally.Sums settled) (job : Job ω ε) (attempt : Nat) (fate : Fate ε) :
    (after tally job.request.id fate : Worker ω ε).Agrees outcomes
      (settled ++ [⟨job, attempt, fate⟩]) := by
  obtain ⟨rfl, hnone⟩ := h
  have hnone' : fate ≠ .lost → ∀ x ∈ settled ++ [⟨job, attempt, fate⟩], x.fate ≠ .lost := by
    intro hfate x hx
    rcases List.mem_append.mp hx with hx | hx
    · exact hnone x hx
    · rw [List.mem_singleton.mp hx]
      exact hfate
  cases fate with
  | completed =>
    refine ⟨?_, hnone' (by simp)⟩
    simp [Tally.of, Settlement.isCompleted, Settlement.failure?]
  | failed e =>
    refine ⟨?_, hnone' (by simp)⟩
    simp [Tally.of, Settlement.isCompleted, Settlement.failure?]
  | lost => exact ⟨_, List.mem_append_right _ (List.mem_singleton.mpr rfl), rfl⟩

/-- A worker without a request knows nothing of any attempt. -/
theorem Agrees.of_outcomes {w : Worker ω ε} {f g : Nat → List (Outcome ε)}
    {settled : List (Settlement ω ε)} (h : w.Agrees f settled)
    (hfg : ∀ job ∈ w.held, g job.ticket = f job.ticket) : w.Agrees g settled := by
  cases w with
  | idle tally => exact h
  | running tally job attempt =>
    have hjob := hfg job (List.mem_singleton.mpr rfl)
    simp only [Agrees] at h ⊢
    rw [hjob]
    exact h
  | waiting tally job attempt e delay =>
    have hjob := hfg job (List.mem_singleton.mpr rfl)
    simp only [Agrees] at h ⊢
    rw [hjob]
    exact h
  | left tally => exact h
  | dead => exact h

end Worker

/-! ## Desks -/

/-- A worker with the requests it has settled, the first one first. -/
structure Desk (ω ε : Type) where
  worker : Worker ω ε
  settled : List (Settlement ω ε)

namespace Desk

/-- The requests that the worker ever took. -/
def jobs (d : Desk ω ε) : List (Job ω ε) :=
  d.worker.held ++ d.settled.map Settlement.job

def failures (d : Desk ω ε) : List (Failure ε) :=
  d.settled.filterMap Settlement.failure?

/-- The worker took nothing yet. -/
def idle : Desk ω ε :=
  ⟨.idle .empty, []⟩

end Desk

/-- Requests with their tickets. -/
def numbered (sent : List (Request ω ε)) : List (Job ω ε) :=
  sent.mapIdx fun ticket request => ⟨ticket, request⟩

theorem numbered_concat (sent : List (Request ω ε)) (r : Request ω ε) :
    numbered (sent ++ [r]) = numbered sent ++ [⟨sent.length, r⟩] := by
  unfold numbered
  exact List.mapIdx_concat

theorem mem_numbered {sent : List (Request ω ε)} {job : Job ω ε} :
    job ∈ numbered sent ↔ sent[job.ticket]? = some job.request := by
  unfold numbered
  rw [List.mem_mapIdx]
  constructor
  · rintro ⟨i, hi, rfl⟩
    exact List.getElem?_eq_getElem hi
  · intro h
    obtain ⟨hlt, heq⟩ := List.getElem?_eq_some_iff.mp h
    refine ⟨job.ticket, hlt, ?_⟩
    rw [heq]

theorem length_numbered (sent : List (Request ω ε)) : (numbered sent).length = sent.length :=
  List.length_mapIdx

theorem map_request_numbered (sent : List (Request ω ε)) :
    (numbered sent).map Job.request = sent := by
  refine List.ext_getElem (by simp [numbered]) fun i _ _ => ?_
  simp [numbered]

theorem nodup_tickets (sent : List (Request ω ε)) : ((numbered sent).map Job.ticket).Nodup := by
  have hrange : (numbered sent).map Job.ticket = List.range sent.length := by
    refine List.ext_getElem (by simp [numbered]) fun i _ _ => ?_
    simp [numbered]
  rw [hrange]
  exact List.nodup_range

theorem nodup_of_perm {jobs : List (Job ω ε)} {sent : List (Request ω ε)}
    (h : jobs.Perm (numbered sent)) : (jobs.map Job.ticket).Nodup :=
  ((h.map Job.ticket).nodup_iff).mpr (nodup_tickets sent)

/-- What is at one desk is at no other. -/
theorem ticket_ne {queue : List (Job ω ε)} {pre post : List (Desk ω ε)} {d e : Desk ω ε}
    (hnodup : ((queue ++ (pre ++ d :: post).flatMap Desk.jobs).map Job.ticket).Nodup)
    (he : e ∈ pre ∨ e ∈ post) {job job' : Job ω ε} (hjob : job ∈ d.jobs) (hjob' : job' ∈ e.jobs) :
    job.ticket ≠ job'.ticket := by
  rw [List.flatMap_append, List.flatMap_cons, List.map_append, List.map_append, List.map_append,
    List.nodup_append, List.nodup_append, List.nodup_append] at hnodup
  obtain ⟨-, ⟨-, ⟨-, -, hpost⟩, hpre⟩, -⟩ := hnodup
  have hmem := List.mem_map_of_mem (f := Job.ticket) hjob
  have hmem' : ∀ {l : List (Desk ω ε)}, e ∈ l → job'.ticket ∈ (l.flatMap Desk.jobs).map Job.ticket :=
    fun hl => List.mem_map_of_mem (List.mem_flatMap.mpr ⟨e, hl, hjob'⟩)
  rcases he with he | he
  · exact fun heq => hpre _ (hmem' he) _ (List.mem_append_left _ hmem) heq.symm
  · exact hpost _ hmem _ (hmem' he)

/-! ## The account -/

namespace Pool

/-- Every accepted request is in its place. -/
structure Accounts (J : Float → Prop) (p : Pool ω ε) (sent : List (Request ω ε))
    (desks : List (Desk ω ε)) : Prop where
  workers : p.workers = desks.map Desk.worker
  accepted : p.accepted = sent.length
  jobs : (p.queue ++ desks.flatMap Desk.jobs).Perm (numbered sent)
  failures : p.failures.Perm (desks.flatMap Desk.failures)
  fresh : ∀ t, (∀ d ∈ desks, ∀ job ∈ d.jobs, job.ticket ≠ t) → p.outcomes t = []
  agrees : ∀ d ∈ desks, d.worker.Agrees p.outcomes d.settled
  settled : ∀ d ∈ desks, ∀ x ∈ d.settled,
    x.job.request.Settles J p.cancelled (p.outcomes x.job.ticket) x.attempts x.fate

theorem accounts_start (parallelism capacity : Nat) :
    (start parallelism capacity : Pool ω ε).Accounts J []
      (List.replicate (max 1 parallelism) .idle) := by
  have hidle : ∀ d ∈ List.replicate (max 1 parallelism) (Desk.idle : Desk ω ε), d = .idle :=
    fun d hd => (List.mem_replicate.mp hd).2
  have hjobs : (List.replicate (max 1 parallelism) (Desk.idle : Desk ω ε)).flatMap Desk.jobs = [] :=
    List.flatMap_eq_nil_iff.mpr fun d hd => by rw [hidle d hd]; rfl
  have hfailures :
      (List.replicate (max 1 parallelism) (Desk.idle : Desk ω ε)).flatMap Desk.failures = [] :=
    List.flatMap_eq_nil_iff.mpr fun d hd => by rw [hidle d hd]; rfl
  exact
    { workers := by
        rw [List.map_replicate]
        rfl
      accepted := rfl
      jobs := by rw [hjobs]; exact .refl _
      failures := by rw [hfailures]; exact .refl _
      fresh := fun _ _ => rfl
      agrees := fun d hd => by rw [hidle d hd]; exact ⟨rfl, nofun⟩
      settled := fun d hd => by rw [hidle d hd]; nofun }

variable {p p' : Pool ω ε} {sent : List (Request ω ε)} {desks pre post : List (Desk ω ε)}
  {d : Desk ω ε}

/-- The desk of a worker. -/
theorem Accounts.desk_of (h : p.Accounts J sent desks) {i : Nat} {w : Worker ω ε}
    (hw : p.workers[i]? = some w) :
    ∃ pre d post, desks = pre ++ d :: post ∧ pre.length = i ∧ d.worker = w := by
  rw [h.workers, List.getElem?_map] at hw
  obtain ⟨d, hd, hdw⟩ := Option.map_eq_some_iff.mp hw
  obtain ⟨hi, heq⟩ := List.getElem?_eq_some_iff.mp hd
  refine ⟨desks.take i, d, desks.drop (i + 1), ?_, List.length_take_of_le (Nat.le_of_lt hi), hdw⟩
  rw [← heq, ← List.drop_eq_getElem_cons hi, List.take_append_drop]

/-- A request that waits in the queue has not been tried. -/
theorem Accounts.outcomes_of_mem_queue (h : p.Accounts J sent desks) {job : Job ω ε}
    (hjob : job ∈ p.queue) : p.outcomes job.ticket = [] := by
  refine h.fresh _ fun d hd job' hjob' heq => ?_
  have hnodup := nodup_of_perm h.jobs
  rw [List.map_append, List.nodup_append] at hnodup
  exact hnodup.2.2 _ (List.mem_map_of_mem hjob) _
    (List.mem_map_of_mem (List.mem_flatMap.mpr ⟨d, hd, hjob'⟩)) heq.symm

/-- A settled request is not in the hand of its worker any more. -/
theorem Accounts.settled_ne_held (h : p.Accounts J sent (pre ++ d :: post)) {x : Settlement ω ε}
    (hx : x ∈ d.settled) {job : Job ω ε} (hjob : job ∈ d.worker.held) :
    job.ticket ≠ x.job.ticket := by
  have hnodup := nodup_of_perm h.jobs
  rw [List.flatMap_append, List.flatMap_cons, List.map_append, List.map_append, List.map_append,
    List.nodup_append, List.nodup_append, List.nodup_append] at hnodup
  obtain ⟨-, ⟨-, ⟨hown, -, -⟩, -⟩, -⟩ := hnodup
  rw [Desk.jobs, List.map_append, List.nodup_append] at hown
  exact hown.2.2 _ (List.mem_map_of_mem hjob) _ (List.mem_map_of_mem (List.mem_map_of_mem hx))

/-- What one worker does changes its own desk and no other.  The requests it takes come
from the queue, and an attempt that ends is one at the request in its hand. -/
theorem Accounts.replace (h : p.Accounts J sent (pre ++ d :: post)) (d' : Desk ω ε)
    (hworkers : p'.workers = p.workers.set pre.length d'.worker)
    (haccepted : p'.accepted = p.accepted)
    (hcancelled : p'.cancelled = p.cancelled)
    (hjobs : (p'.queue ++ d'.jobs).Perm (p.queue ++ d.jobs))
    (hkeep : ∀ job ∈ d.jobs, job ∈ d'.jobs)
    (hfailures : ∃ new, p'.failures = p.failures ++ new ∧ d'.failures = d.failures ++ new)
    (hothers : ∀ t, (∀ job ∈ d.worker.held, job.ticket ≠ t) → p'.outcomes t = p.outcomes t)
    (hagrees : d'.worker.Agrees p'.outcomes d'.settled)
    (hsettled : ∀ x ∈ d'.settled, x ∈ d.settled ∨
      x.job.request.Settles J p'.cancelled (p'.outcomes x.job.ticket) x.attempts x.fate) :
    p'.Accounts J sent (pre ++ d' :: post) := by
  have hdesk : d ∈ pre ++ d :: post := List.mem_append_right _ List.mem_cons_self
  have hmem : ∀ {e : Desk ω ε}, e ∈ pre ∨ e ∈ post → e ∈ pre ++ d :: post := by
    intro e he
    rcases he with he | he
    · exact List.mem_append_left _ he
    · exact List.mem_append_right _ (List.mem_cons_of_mem _ he)
  have hcases : ∀ {e : Desk ω ε}, e ∈ pre ++ d' :: post → (e ∈ pre ∨ e ∈ post) ∨ e = d' := by
    intro e he
    rcases List.mem_append.mp he with he | he
    · exact .inl (.inl he)
    · rcases List.mem_cons.mp he with he | he
      · exact .inr he
      · exact .inl (.inr he)
  -- the tickets at the other desks are none of those at this one
  have hother : ∀ {e : Desk ω ε}, e ∈ pre ∨ e ∈ post → ∀ job ∈ e.jobs,
      p'.outcomes job.ticket = p.outcomes job.ticket := by
    intro e he job hjob
    exact hothers _ fun job' hjob' =>
      ticket_ne (nodup_of_perm h.jobs) he (List.mem_append_left _ hjob') hjob
  refine ⟨?_, haccepted.trans h.accepted, ?_, ?_, ?_, ?_, ?_⟩
  · have hset : (pre.map Desk.worker).length = pre.length := List.length_map _
    rw [hworkers, h.workers, List.map_append, List.map_append, List.map_cons, List.map_cons,
      ← hset, List.set_append_right _ _ (Nat.le_refl _), Nat.sub_self, List.set_cons_zero]
  · refine List.Perm.trans ?_ h.jobs
    simp only [List.flatMap_append, List.flatMap_cons]
    refine (List.perm_append_comm_assoc ..).trans (.trans ?_ (List.perm_append_comm_assoc ..))
    refine .append_left _ ?_
    rw [← List.append_assoc, ← List.append_assoc]
    exact hjobs.append_right _
  · obtain ⟨new, hp, hd⟩ := hfailures
    have hold := h.failures
    rw [List.flatMap_append, List.flatMap_cons] at hold ⊢
    rw [hp, hd]
    refine (hold.append_right new).trans ?_
    rw [List.append_assoc, List.append_assoc, List.append_assoc]
    exact .append_left _ (.append_left _ List.perm_append_comm)
  · intro t ht
    have hown : ∀ job ∈ d.jobs, job.ticket ≠ t := fun job hjob =>
      ht d' (List.mem_append_right _ List.mem_cons_self) job (hkeep job hjob)
    rw [hothers t fun job hjob => hown job (List.mem_append_left _ hjob)]
    refine h.fresh t fun e he job hjob => ?_
    rcases List.mem_append.mp he with he | he
    · exact ht e (List.mem_append_left _ he) job hjob
    · rcases List.mem_cons.mp he with rfl | he
      · exact hown job hjob
      · exact ht e (List.mem_append_right _ (List.mem_cons_of_mem _ he)) job hjob
  · intro e he
    rcases hcases he with he | rfl
    · exact (h.agrees e (hmem he)).of_outcomes fun job hjob =>
        hother he job (List.mem_append_left _ hjob)
    · exact hagrees
  · intro e he x hx
    rcases hcases he with he | rfl
    · have hjob : x.job ∈ e.jobs := List.mem_append_right _ (List.mem_map_of_mem hx)
      rw [hother he x.job hjob, hcancelled]
      exact h.settled e (hmem he) x hx
    · rcases hsettled x hx with hx | hx
      · rw [hothers _ fun job hjob => h.settled_ne_held hx hjob, hcancelled]
        exact h.settled d hdesk x hx
      · exact hx

/-! ## What keeps the account -/

theorem Accounts.send {r : Request ω ε} (h : p.Accounts J sent desks)
    (hp : p.send r = some p') : p'.Accounts J (sent ++ [r]) desks := by
  rw [send_eq hp]
  refine { h with accepted := ?_, jobs := ?_ }
  · rw [List.length_append, List.length_singleton]
    exact congrArg (· + 1) h.accepted
  · show (p.queue ++ [Job.mk p.accepted r] ++ desks.flatMap Desk.jobs).Perm (numbered (sent ++ [r]))
    rw [numbered_concat, h.accepted, List.append_assoc]
    refine (List.Perm.append_left p.queue List.perm_append_comm).trans ?_
    rw [← List.append_assoc]
    exact h.jobs.append_right _

theorem Accounts.close (h : p.Accounts J sent desks) :
    ({ p with closed := true } : Pool ω ε).Accounts J sent desks :=
  { h with }

/-- A pool may be torn down at any time, and need not be. -/
theorem Accounts.cancel (h : p.Accounts J sent desks) {cancelled : Bool}
    (hc : p.cancelled = true → cancelled = true) :
    ({ p with cancelled := cancelled } : Pool ω ε).Accounts J sent desks :=
  { h with settled := fun d hd x hx => (h.settled d hd x hx).mono hc }

/-- A worker that is done with the request in its hand keeps the account. -/
theorem Accounts.settle (h : p.Accounts J sent (pre ++ d :: post)) {tally : Tally} {job : Job ω ε}
    {attempt : Nat} {fate : Fate ε} (hheld : d.worker.held = [job]) (hsums : tally.Sums d.settled)
    {history : List (PoolEvent ε)}
    (hothers : ∀ t, job.ticket ≠ t →
      ({ p with history := history } : Pool ω ε).outcomes t = p.outcomes t)
    (hsettles : job.request.Settles J p.cancelled
      (({ p with history := history } : Pool ω ε).outcomes job.ticket) attempt fate) :
    ∃ desks, (({ p with history := history } : Pool ω ε).settleAt pre.length tally job attempt
      fate).Accounts J sent desks := by
  have hjobs : d.jobs = job :: d.settled.map Settlement.job := by
    unfold Desk.jobs
    rw [hheld]
    rfl
  have hafter : (Worker.after tally job.request.id fate : Worker ω ε).held = [] := by
    cases fate with
    | completed => rfl
    | failed e => rfl
    | lost => rfl
  have hjobs' : (Desk.mk (.after tally job.request.id fate)
      (d.settled ++ [⟨job, attempt, fate⟩])).jobs = d.settled.map Settlement.job ++ [job] := by
    unfold Desk.jobs
    rw [hafter, List.map_append, List.nil_append]
    rfl
  refine ⟨_, h.replace ⟨.after tally job.request.id fate, d.settled ++ [⟨job, attempt, fate⟩]⟩
    rfl rfl rfl ?_ ?_ ?_ ?_ ?_ ?_⟩
  · rw [hjobs, hjobs']
    exact .append_left _ List.perm_append_comm
  · rw [hjobs, hjobs']
    intro j hj
    rcases List.mem_cons.mp hj with rfl | hj
    · exact List.mem_append_right _ (List.mem_singleton.mpr rfl)
    · exact List.mem_append_left _ hj
  · refine ⟨_, rfl, ?_⟩
    show (d.settled ++ [_]).filterMap _ = _
    rw [List.filterMap_append]
    cases fate with
    | completed => rfl
    | failed e => rfl
    | lost => rfl
  · intro t ht
    exact hothers t (ht job (by rw [hheld]; exact List.mem_singleton.mpr rfl))
  · exact Worker.agrees_after hsums job attempt fate
  · intro x hx
    rcases List.mem_append.mp hx with hx | hx
    · exact .inl hx
    · rw [List.mem_singleton.mp hx]
      exact .inr hsettles

/-- A worker that keeps the request in its hand keeps the account. -/
theorem Accounts.hold (h : p.Accounts J sent (pre ++ d :: post)) {w : Worker ω ε}
    (hheld : w.held = d.worker.held) {history : List (PoolEvent ε)}
    (hothers : ∀ t, (∀ job ∈ d.worker.held, job.ticket ≠ t) →
      ({ p with history := history } : Pool ω ε).outcomes t = p.outcomes t)
    (hagrees : w.Agrees ({ p with history := history } : Pool ω ε).outcomes d.settled) :
    ∃ desks, (({ p with history := history } : Pool ω ε).setWorker pre.length w).Accounts J sent
      desks := by
  have hjobs : (Desk.mk w d.settled).jobs = d.jobs := by
    unfold Desk.jobs
    rw [hheld]
  refine ⟨_, h.replace ⟨w, d.settled⟩ rfl rfl rfl ?_ ?_ ?_ hothers hagrees fun x hx => .inl hx⟩
  · rw [hjobs]
    exact .refl _
  · rw [hjobs]
    exact fun _ hj => hj
  · exact ⟨[], (List.append_nil _).symm, (List.append_nil _).symm⟩

theorem Accounts.finish {i : Nat} {o : Outcome ε} {jitter : Float} (h : p.Accounts J sent desks)
    (hJ : J jitter) (hp : p.finish i o jitter = some p') : ∃ desks', p'.Accounts J sent desks' := by
  obtain ⟨tally, job, attempt, hw, hcases⟩ := finish_cases hJ hp
  obtain ⟨pre, d, post, rfl, rfl, hd⟩ := h.desk_of hw
  have hagrees := h.agrees d (List.mem_append_right _ List.mem_cons_self)
  rw [hd] at hagrees
  obtain ⟨hsums, hattempt, htried⟩ := hagrees
  have hheld : d.worker.held = [job] := by
    rw [hd]
    rfl
  have hends := ends_ended p pre.length job.ticket attempt o
  have hown : (p.record (.ended pre.length job.ticket attempt o)).outcomes job.ticket =
      p.outcomes job.ticket ++ [o] := by
    rw [outcomes_concat hends, if_pos rfl]
  have hothers : ∀ t, job.ticket ≠ t →
      (p.record (.ended pre.length job.ticket attempt o)).outcomes t = p.outcomes t := by
    intro t ht
    rw [outcomes_concat hends, if_neg ht]
  rcases hcases with ⟨fate, hfate, rfl⟩ | ⟨e, delay, rfl, hrepeats, rfl⟩
  · exact h.settle hheld hsums hothers ⟨_, o, hown, hattempt, htried, hfate⟩
  · refine h.hold (w := .waiting tally job attempt e delay) hheld.symm
      (fun t ht => hothers t (ht job (by rw [hheld]; exact List.mem_singleton.mpr rfl))) ?_
    show tally.Sums d.settled ∧
      ((p.record (.ended pre.length job.ticket attempt (.failed e))).outcomes job.ticket).length =
        attempt ∧
      job.request.Tried
        ((p.record (.ended pre.length job.ticket attempt (.failed e))).outcomes job.ticket) ∧
      ((p.record (.ended pre.length job.ticket attempt (.failed e))).outcomes
        job.ticket).getLast? = some (.failed e)
    rw [hown]
    refine ⟨hsums, ?_, Request.tried_concat htried ?_, List.getLast?_concat⟩
    · rw [List.length_append]
      exact hattempt
    · rw [hattempt]
      exact hrepeats

theorem Accounts.take (h : p.Accounts J sent desks) {i : Nat} {tally : Tally} {job : Job ω ε}
    {rest : List (Job ω ε)} (hw : p.workers[i]? = some (.idle tally)) (hq : p.queue = job :: rest) :
    ∃ desks', ((({ p with queue := rest } : Pool ω ε).setWorker i (.running tally job 1)).record
      (.began i job.ticket 1)).Accounts J sent desks' := by
  obtain ⟨pre, d, post, rfl, rfl, hd⟩ := h.desk_of hw
  have hjob : job ∈ p.queue := hq ▸ List.mem_cons_self
  have hnone := h.outcomes_of_mem_queue hjob
  have hagrees := h.agrees d (List.mem_append_right _ List.mem_cons_self)
  rw [hd] at hagrees
  have houtcomes := outcomes_of_ends (ends_began p pre.length job.ticket 1)
  have hjobs : d.jobs = d.settled.map Settlement.job := by
    unfold Desk.jobs
    rw [hd]
    rfl
  refine ⟨_, h.replace ⟨.running tally job 1, d.settled⟩ rfl rfl rfl ?_ ?_ ?_ ?_ ?_ ?_⟩
  · rw [hjobs, hq]
    exact List.perm_middle
  · intro j hj
    rw [hjobs] at hj
    exact List.mem_cons_of_mem _ hj
  · exact ⟨[], (List.append_nil _).symm, (List.append_nil _).symm⟩
  · exact fun t _ => congrFun houtcomes t
  · show Worker.Agrees (p.record (.began pre.length job.ticket 1)).outcomes _ _
    rw [houtcomes]
    refine ⟨hagrees, ?_, ?_⟩
    · rw [hnone]
      rfl
    · rw [hnone]
      exact Request.tried_nil
  · exact fun x hx => .inl hx

theorem Accounts.wake (h : p.Accounts J sent desks) {i : Nat} {tally : Tally} {job : Job ω ε}
    {attempt : Nat} {e : ε} {delay : Duration}
    (hw : p.workers[i]? = some (.waiting tally job attempt e delay)) :
    ∃ desks', ((p.setWorker i (.running tally job (attempt + 1))).record
      (.began i job.ticket (attempt + 1))).Accounts J sent desks' := by
  obtain ⟨pre, d, post, rfl, rfl, hd⟩ := h.desk_of hw
  have hagrees := h.agrees d (List.mem_append_right _ List.mem_cons_self)
  rw [hd] at hagrees
  obtain ⟨hsums, hattempt, htried, -⟩ := hagrees
  have houtcomes := outcomes_of_ends (ends_began p pre.length job.ticket (attempt + 1))
  refine h.hold (w := .running tally job (attempt + 1)) (by rw [hd]; rfl)
    (fun t _ => congrFun houtcomes t) ?_
  show Worker.Agrees (p.record (.began pre.length job.ticket (attempt + 1))).outcomes _ _
  rw [houtcomes]
  exact ⟨hsums, congrArg (· + 1) hattempt, htried⟩

/-- A worker that waits has failed so often, and the last time with an error worth another
try. -/
theorem Accounts.abandon (h : p.Accounts J sent desks) {i : Nat} {tally : Tally} {job : Job ω ε}
    {attempt : Nat} {e : ε} {delay : Duration}
    (hw : p.workers[i]? = some (.waiting tally job attempt e delay))
    (hcancelled : p.cancelled = true) :
    ∃ desks', (p.fail i tally job attempt (.failed e)).Accounts J sent desks' := by
  obtain ⟨pre, d, post, rfl, rfl, hd⟩ := h.desk_of hw
  have hagrees := h.agrees d (List.mem_append_right _ List.mem_cons_self)
  rw [hd] at hagrees
  obtain ⟨hsums, hattempt, htried, hlast⟩ := hagrees
  obtain ⟨before, hbefore⟩ := List.getLast?_eq_some_iff.mp hlast
  rw [hbefore] at hattempt htried
  have hrepeats := htried before.length (.failed e) List.getElem?_concat_length
  rw [List.length_append] at hattempt
  show ∃ desks', (({ p with history := p.history } : Pool ω ε).settleAt pre.length tally job
    attempt (.failed (.failed e))).Accounts J sent desks'
  refine h.settle (by rw [hd]; rfl) hsums (fun _ _ => rfl)
    ⟨before, .failed e, hbefore, hattempt, fun k o hk => ?_, ?_⟩
  · exact htried k o (List.getElem?_append_left (List.getElem?_eq_some_iff.mp hk).1 ▸ hk)
  · rw [← hattempt]
    exact .abandoned e hrepeats hcancelled

theorem Accounts.leave (h : p.Accounts J sent desks) {i : Nat} {tally : Tally}
    (hw : p.workers[i]? = some (.idle tally)) :
    ∃ desks', (p.setWorker i (.left tally)).Accounts J sent desks' := by
  obtain ⟨pre, d, post, rfl, rfl, hd⟩ := h.desk_of hw
  have hagrees := h.agrees d (List.mem_append_right _ List.mem_cons_self)
  rw [hd] at hagrees
  show ∃ desks', (({ p with history := p.history } : Pool ω ε).setWorker pre.length
    (.left tally)).Accounts J sent desks'
  exact h.hold (by rw [hd]; rfl) (fun _ _ => rfl) hagrees

theorem Accounts.move (h : p.Accounts J sent desks) (hp : p.Moves p') :
    ∃ desks', p'.Accounts J sent desks' := by
  cases hp with
  | take i tally job rest hw hq hcancelled => exact h.take hw hq
  | wake i tally job attempt e delay hw hcancelled => exact h.wake hw
  | abandon i tally job attempt e delay hw hcancelled => exact h.abandon hw hcancelled
  | leave i tally hw hidle => exact h.leave hw

/-- What a worker has in hand has been sent. -/
theorem Accounts.sent_of_held (h : p.Accounts J sent desks) {i : Nat} {w : Worker ω ε}
    (hw : p.workers[i]? = some w) {job : Job ω ε} (hjob : job ∈ w.held) :
    sent[job.ticket]? = some job.request := by
  obtain ⟨pre, d, post, rfl, -, rfl⟩ := h.desk_of hw
  refine mem_numbered.mp (h.jobs.mem_iff.mp (List.mem_append_right _ ?_))
  refine List.mem_flatMap.mpr ⟨d, List.mem_append_right _ List.mem_cons_self, ?_⟩
  exact List.mem_append_left _ hjob

theorem accounts_act {a : PoolAction ω ε} (h : p.Accounts J sent desks) (hJ : a.Draws J)
    (hp : p.act a = some p') : ∃ desks', p'.Accounts J (sent ++ a.sends) desks' := by
  have keep : ∀ {new : List (Request ω ε)}, new = [] → (∃ desks', p'.Accounts J sent desks') →
      ∃ desks', p'.Accounts J (sent ++ new) desks' := by
    intro new hnew h'
    rw [hnew, List.append_nil]
    exact h'
  cases a with
  | send r => exact ⟨desks, h.send hp⟩
  | close =>
    injection hp with hp
    exact keep rfl ⟨desks, hp ▸ h.close⟩
  | tearDown =>
    injection hp with hp
    exact keep rfl ⟨desks, hp ▸ h.cancel fun _ => rfl⟩
  | take i => exact keep rfl (h.move (moves_of_take hp))
  | finish i o jitter => exact keep rfl (h.finish hJ hp)
  | wake i => exact keep rfl (h.move (moves_of_wake hp))
  | abandon i => exact keep rfl (h.move (moves_of_abandon hp))
  | leave i => exact keep rfl (h.move (moves_of_leave hp))

end Pool
end ImageUpload
