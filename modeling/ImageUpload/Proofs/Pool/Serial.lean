import ImageUpload.Proofs.Pool.Bounds

/-
A pool of one worker.

Its history is that of its requests one after another, in the order of sending: `Serial`.  Once
it has no worker left, none having died, each request was tried up to the first attempt that is
final, `exists_last`.  Together with the bounds for any number of workers that is
`bounded_and_serial`.
-/

namespace ImageUpload

variable {ω ε : Type} {J : Float → Prop}

namespace Pool

variable {p p' : Pool ω ε} {sent : List (Request ω ε)} {desks : List (Desk ω ε)}
  {i : Nat} {w w' : Worker ω ε}

/-! ## Request by request -/

/-- The events of the first `n` requests, of one request after the other. -/
def inSeries (p : Pool ω ε) (n : Nat) : List (PoolEvent ε) :=
  (List.range n).flatMap p.eventsOf

theorem inSeries_succ (p : Pool ω ε) (n : Nat) :
    p.inSeries (n + 1) = p.inSeries n ++ p.eventsOf n := by
  unfold inSeries
  rw [List.range_succ, List.flatMap_append, List.flatMap_singleton]

theorem ticket_lt_of_mem_inSeries {n : Nat} {e : PoolEvent ε} (he : e ∈ p.inSeries n) :
    e.ticket < n := by
  obtain ⟨t, ht, het⟩ := List.mem_flatMap.mp he
  rw [of_decide_eq_true (List.mem_filter.mp het).2]
  exact List.mem_range.mp ht

/-- Requests behind the last one with an event add nothing. -/
theorem history_inSeries_of_le {n m : Nat} (h : p.history = p.inSeries n) (hle : n ≤ m) :
    p.history = p.inSeries m := by
  induction m, hle using Nat.le_induction with
  | base => exact h
  | succ m hnm ih =>
    have hnone : p.eventsOf m = [] := by
      refine List.filter_eq_nil_iff.mpr fun e he => ?_
      have hlt := ticket_lt_of_mem_inSeries (h ▸ he)
      rw [decide_eq_true_eq]
      omega
    rw [inSeries_succ, hnone, List.append_nil]
    exact ih

/-- An event of the last request goes to the end. -/
theorem inSeries_record {n : Nat} (h : p.history = p.inSeries (n + 1)) {e : PoolEvent ε}
    (he : e.ticket = n) : (p.record e).history = (p.record e).inSeries (n + 1) := by
  have hbefore : (p.record e).inSeries n = p.inSeries n := by
    refine List.flatMap_congr fun t ht => ?_
    rw [eventsOf_record, if_neg]
    have hlt := List.mem_range.mp ht
    omega
  rw [inSeries_succ] at h
  rw [inSeries_succ, hbefore, eventsOf_record, if_pos he, ← List.append_assoc, ← h]
  rfl

/-! ## One worker -/

/-- There is one worker, and what it has in hand is the last request that was taken. -/
structure Serial (p : Pool ω ε) : Prop where
  worker : ∃ w, p.workers = [w] ∧ ∀ job ∈ w.held, job.ticket + 1 = p.taken.length
  history : p.history = p.inSeries p.taken.length
  own : ∀ e ∈ p.history, e.worker = 0

theorem serial_start {parallelism : Nat} (h : parallelism ≤ 1) (capacity : Nat) :
    (start parallelism capacity : Pool ω ε).Serial := by
  refine ⟨⟨.idle .empty, ?_, nofun⟩, rfl, nofun⟩
  show List.replicate (max 1 parallelism) _ = _
  rw [Nat.max_eq_left h]
  rfl

/-- The worker in its place. -/
theorem Serial.place (h : p.Serial) (hw : p.workers[i]? = some w) :
    i = 0 ∧ (∀ w', p.workers.set i w' = [w']) ∧ ∀ job ∈ w.held, job.ticket + 1 = p.taken.length := by
  obtain ⟨v, hv, hheld⟩ := h.worker
  rw [hv] at hw ⊢
  cases i with
  | zero =>
    obtain rfl := Option.some.inj hw
    exact ⟨rfl, fun _ => rfl, hheld⟩
  | succ i => exact nomatch hw

/-- The worker notes an event of the request in its hand. -/
theorem Serial.note (h : p.Serial) (hw : p.workers[i]? = some w) {e : PoolEvent ε}
    (hworkers : p'.workers = p.workers.set i w') (hhistory : p'.history = (p.record e).history)
    (hworker : e.worker = i) (htaken : p'.taken.length = e.ticket + 1)
    (hbefore : p.taken.length ≤ e.ticket + 1) (hheld : ∀ job ∈ w'.held, job.ticket = e.ticket) :
    p'.Serial := by
  obtain ⟨hi, hset, -⟩ := h.place hw
  have hseries := inSeries_record (history_inSeries_of_le h.history hbefore) rfl
  refine ⟨⟨w', hworkers.trans (hset w'), fun job hjob => ?_⟩, ?_, fun e' he' => ?_⟩
  · rw [hheld job hjob, htaken]
  · have hevents : p'.inSeries = (p.record e).inSeries := by
      unfold inSeries eventsOf
      rw [hhistory]
    rw [hhistory, htaken, hevents]
    exact hseries
  · rw [hhistory] at he'
    rcases List.mem_append.mp he' with he' | he'
    · exact h.own e' he'
    · rw [List.mem_singleton.mp he', hworker, hi]

theorem Serial.rest (h : p.Serial) (hw : p.workers[i]? = some w)
    (hworkers : p'.workers = p.workers.set i w') (hhistory : p'.history = p.history)
    (hheld : w'.held = []) : p'.Serial := by
  obtain ⟨-, hset, -⟩ := h.place hw
  have htaken : p'.taken = p.taken := by
    unfold taken
    rw [hhistory]
  have hevents : p'.inSeries = p.inSeries := by
    unfold inSeries eventsOf
    rw [hhistory]
  refine ⟨⟨w', hworkers.trans (hset w'), fun job hjob => ?_⟩, ?_, ?_⟩
  · rw [hheld] at hjob
    exact nomatch hjob
  · rw [hhistory, hevents, htaken]
    exact h.history
  · rw [hhistory]
    exact h.own

/-- The first request in the queue is the next in order. -/
theorem InOrder.ticket_eq (h : p.InOrder) {job : Job ω ε} {rest : List (Job ω ε)}
    (hq : p.queue = job :: rest) : job.ticket = p.taken.length := by
  unfold InOrder at h
  rw [hq, List.map_cons] at h
  have hget : (List.range p.accepted)[p.taken.length]? = some job.ticket := by
    rw [← h, List.getElem?_append_right (Nat.le_refl _), Nat.sub_self]
    rfl
  obtain ⟨hlt, heq⟩ := List.getElem?_eq_some_iff.mp hget
  rw [List.getElem_range] at heq
  exact heq.symm

theorem Serial.move (h : p.Serial) (hacc : p.Accounts J sent desks) (horder : p.InOrder)
    (hp : p.Moves p') : p'.Serial := by
  cases hp with
  | take i tally job rest hw hq hcancelled =>
    have hticket := horder.ticket_eq hq
    have htaken := taken_record p (.began i job.ticket 1)
    refine h.note hw (e := .began i job.ticket 1) rfl rfl rfl ?_ ?_
      (by simp [Worker.held, PoolEvent.ticket])
    · show (p.record _).taken.length = job.ticket + 1
      rw [htaken, List.length_append, hticket]
      rfl
    · show p.taken.length ≤ job.ticket + 1
      omega
  | wake i tally job attempt e delay hw hcancelled =>
    have hlast := (h.place hw).2.2 job (List.mem_singleton.mpr rfl)
    refine h.note hw (e := .began i job.ticket (attempt + 1)) rfl rfl rfl ?_ hlast.ge
      (by simp [Worker.held, PoolEvent.ticket])
    show (p.record _).taken.length = job.ticket + 1
    rw [taken_wake p i job.ticket attempt (hacc.attempt_pos hw), hlast]
  | abandon i tally job attempt e delay hw hcancelled => exact h.rest hw rfl rfl rfl
  | leave i tally hw hidle => exact h.rest hw rfl rfl rfl

theorem Serial.finish (h : p.Serial) {o : Outcome ε} {jitter : Float}
    (hp : p.finish i o jitter = some p') : p'.Serial := by
  obtain ⟨tally, job, attempt, hw, hcases⟩ := finish_cases (J := fun _ => True) trivial hp
  have hlast := (h.place hw).2.2 job (List.mem_singleton.mpr rfl)
  have htaken : (p.record (.ended i job.ticket attempt o)).taken.length = job.ticket + 1 := by
    rw [taken_ended, hlast]
  rcases hcases with ⟨fate, -, rfl⟩ | ⟨e, delay, -, -, rfl⟩
  · refine h.note hw (e := .ended i job.ticket attempt o) rfl rfl rfl htaken hlast.ge ?_
    cases fate with
    | completed | failed | lost => exact nofun
  · exact h.note hw (e := .ended i job.ticket attempt o) rfl rfl rfl htaken hlast.ge
      (by simp [Worker.held, PoolEvent.ticket])

theorem serial_act {a : PoolAction ω ε} (h : p.Serial) (hacc : p.Accounts J sent desks)
    (horder : p.InOrder) (hp : p.act a = some p') : p'.Serial := by
  cases a with
  | send r =>
    rw [send_eq hp]
    exact ⟨h.worker, h.history, h.own⟩
  | close =>
    injection hp with hp
    exact hp ▸ ⟨h.worker, h.history, h.own⟩
  | tearDown =>
    injection hp with hp
    exact hp ▸ ⟨h.worker, h.history, h.own⟩
  | finish i o jitter => exact h.finish hp
  | take i => exact h.move hacc horder (moves_of_take hp)
  | wake i => exact h.move hacc horder (moves_of_wake hp)
  | abandon i => exact h.move hacc horder (moves_of_abandon hp)
  | leave i => exact h.move hacc horder (moves_of_leave hp)

theorem serial_run {parallelism capacity : Nat} {actions : List (PoolAction ω ε)}
    (hone : parallelism ≤ 1) (hp : (start parallelism capacity).run actions = some p) :
    p.Serial := by
  refine ((known_start parallelism capacity).run_keeps
    (P := fun p => p.Kept parallelism capacity ∧ p.Serial) ?_
    ⟨kept_start parallelism capacity, serial_start hone capacity⟩ hp).2
  rintro q q' sent a hknown ⟨hkept, hserial⟩ hact
  obtain ⟨desks, hacc⟩ := hknown.accounts
  exact ⟨kept_act hkept hacc hact, serial_act hserial hacc hkept.inOrder hact⟩

/-! ## The end -/

variable {script : Nat → Nat → Outcome ε}

/-- Once all workers have left, and not because of a teardown, every request was tried up to the
first attempt that is final. -/
theorem Known.exists_last (h : p.Known sent) (hfollows : p.Follows script) (hgone : p.gone = true)
    (hcancelled : p.cancelled = false) (hdead : .dead ∉ p.workers) {t : Nat} {r : Request ω ε}
    (hr : sent[t]? = some r) : ∃ k, r.LastAttempt (script t) k ∧
      p.outcomes t = (List.range' 1 k).map (script t) := by
  obtain ⟨desks, hacc⟩ := h.accounts
  have hjobs := hacc.jobs_of_gone hgone
  rw [(h.staffed.closed_of_gone hgone hcancelled hdead).2, List.nil_append] at hjobs
  obtain ⟨x, hx, hjob⟩ := List.mem_map.mp (hjobs.mem_iff.mpr (mem_numbered.mpr hr : ⟨t, r⟩ ∈ _))
  have hdecides := hacc.decides h.recorded hfollows hgone hdead hx
  have houtcomes := hdecides.outcomes_eq h.recorded hfollows
  obtain ⟨hreaches, -, -, hfinal⟩ := hdecides
  rw [hjob] at hreaches hfinal houtcomes
  refine ⟨x.attempts, ⟨hreaches.pos, hfinal hcancelled, fun n hn hlt => ?_⟩, houtcomes⟩
  exact Request.not_final_of_repeats (hreaches.before n hn hlt)

/-- The events of a request that was tried by the one worker. -/
theorem Serial.eventsOf_eq (h : p.Serial) (hrec : p.Recorded) (hgone : p.gone = true) (t : Nat) :
    p.eventsOf t = attempts 0 t 1 (p.outcomes t) := by
  obtain ⟨i, hevents⟩ := hrec.rest t (unheld_of_gone hgone t)
  cases houtcomes : p.outcomes t with
  | nil =>
    rw [houtcomes] at hevents
    exact hevents
  | cons o rest =>
    rw [houtcomes] at hevents
    have hmem : .began i t 1 ∈ p.eventsOf t := hevents ▸ List.mem_cons_self
    have hi : i = 0 := h.own _ (List.mem_filter.mp hmem).1
    rw [hevents, hi]

/-! ## All together -/

/-- What holds of a pool at every moment of a run: how many attempts are under way, who makes
them and in which turn, what was taken from the queue and what is left of it, and how much the
pool holds up. -/
structure Bounded (parallelism capacity : Nat) (sent : List (Request ω ε)) (p : Pool ω ε) :
    Prop where
  open_le : (attemptsOpen p.history).length ≤ max 1 parallelism
  oneEach : ((attemptsOpen p.history).map Prod.fst).Nodup
  inTurn : ∀ t, ∃ i tail, p.eventsOf t = attempts i t 1 (p.outcomes t) ++ tail ∧
    (tail = [] ∨ tail = [.began i t ((p.outcomes t).length + 1)])
  accepted : p.accepted = sent.length
  taken : p.taken = List.range (p.accepted - p.queue.length)
  queue : p.queue = (numbered sent).drop (p.accepted - p.queue.length)
  heldUp_le : p.accepted ≤
    p.completed + p.failures.length + (max 1 parallelism + max 1 capacity)

theorem Known.inTurn (h : p.Known sent) (t : Nat) :
    ∃ i tail, p.eventsOf t = attempts i t 1 (p.outcomes t) ++ tail ∧
      (tail = [] ∨ tail = [.began i t ((p.outcomes t).length + 1)]) := by
  obtain ⟨desks, hacc⟩ := h.accounts
  obtain ⟨i, hended | ⟨tally, job, attempt, hw, rfl, hbegan⟩⟩ := h.recorded.eventsOf_cases t
  · exact ⟨i, [], hended.trans (List.append_nil _).symm, .inl rfl⟩
  · obtain ⟨settled, -, hattempt, -⟩ := hacc.agrees_at hw
    exact ⟨i, _, hbegan, .inr (by rw [hattempt])⟩

theorem outcome_of_mem_attempts {i t n k j s : Nat} {outcomes : List (Outcome ε)} {o : Outcome ε}
    (h : .ended j s k o ∈ attempts i t n outcomes) : n ≤ k ∧ outcomes[k - n]? = some o := by
  induction outcomes generalizing n with
  | nil => exact nomatch h
  | cons a rest ih =>
    rcases List.mem_cons.mp h with h | h
    · exact nomatch h
    · rcases List.mem_cons.mp h with h | h
      · obtain ⟨-, -, rfl, rfl⟩ := PoolEvent.ended.inj h
        exact ⟨Nat.le_refl _, by rw [Nat.sub_self]; rfl⟩
      · obtain ⟨hle, hrest⟩ := ih h
        refine ⟨by omega, ?_⟩
        rw [show k - n = k - (n + 1) + 1 by omega, List.getElem?_cons_succ]
        exact hrest

/-- No attempt is made twice, so some script tells what each of them comes to. -/
theorem Known.exists_script (h : p.Known sent) : ∃ script, p.Follows script := by
  refine ⟨fun t n => ((p.outcomes t)[n - 1]?).getD .done, fun i t n o hmem => ?_⟩
  obtain ⟨j, tail, hevents, htail⟩ := h.recorded.exists_attempts t
  have hown : .ended i t n o ∈ p.eventsOf t := List.mem_filter.mpr ⟨hmem, decide_eq_true rfl⟩
  rw [hevents] at hown
  rcases List.mem_append.mp hown with hown | hown
  · show o = ((p.outcomes t)[n - 1]?).getD .done
    rw [(outcome_of_mem_attempts hown).2]
    rfl
  · exact nomatch htail _ hown

theorem Kept.bounded {parallelism capacity : Nat} (h : p.Kept parallelism capacity)
    (hknown : p.Known sent) : p.Bounded parallelism capacity sent := by
  obtain ⟨desks, hacc⟩ := hknown.accounts
  refine ⟨h.workers ▸ h.tracks.length_le, h.tracks.nodup_workers, hknown.inTurn, hacc.accepted,
    h.inOrder.taken_eq.1, h.inOrder.queue_eq hacc, ?_⟩
  have hledger := h.ledger
  have hload := load_le p
  have hroom := h.room
  rw [h.workers] at hload
  rw [h.capacity] at hroom
  unfold Ledger at hledger
  omega

/-- At every moment of every run the pool keeps its bounds.  The history of a pool of one worker
is that of its requests in the order of sending, and when the worker has left, neither torn down
nor dead, each of them was tried up to its last attempt and no further. -/
theorem bounded_and_serial {parallelism capacity : Nat} {actions : List (PoolAction ω ε)}
    (hrun : (start parallelism capacity).run actions = some p) :
    p.Bounded parallelism capacity (actions.flatMap PoolAction.sends) ∧
      (parallelism ≤ 1 → p.history = (List.range p.accepted).flatMap p.eventsOf ∧
        (p.gone = true → p.cancelled = false → .dead ∉ p.workers →
          (∃ script, p.Follows script) ∧ ∀ script, p.Follows script → ∃ k : Nat → Nat,
            (∀ (t : Nat) (r : Request ω ε), (actions.flatMap PoolAction.sends)[t]? = some r →
              r.LastAttempt (script t) (k t)) ∧
            p.history = (List.range p.accepted).flatMap fun t =>
              attempts 0 t 1 ((List.range' 1 (k t)).map (script t)))) := by
  have hknown := known_run (known_start parallelism capacity) hrun
  rw [List.nil_append] at hknown
  have hkept := kept_run hrun
  have hbounded := hkept.bounded hknown
  refine ⟨hbounded, fun hone => ?_⟩
  have hserial := serial_run hone hrun
  have hall : p.history = (List.range p.accepted).flatMap p.eventsOf := by
    refine history_inSeries_of_le hserial.history ?_
    rw [hbounded.taken, List.length_range]
    exact Nat.sub_le _ _
  refine ⟨hall, fun hgone hcancelled hdead => ⟨hknown.exists_script, fun script hfollows => ?_⟩⟩
  have hlast : ∀ t, ∃ k, ∀ r : Request ω ε, (actions.flatMap PoolAction.sends)[t]? = some r →
      r.LastAttempt (script t) k ∧ p.outcomes t = (List.range' 1 k).map (script t) := by
    intro t
    cases hr : (actions.flatMap PoolAction.sends)[t]? with
    | none => exact ⟨0, nofun⟩
    | some r =>
      obtain ⟨k, hk⟩ := hknown.exists_last hfollows hgone hcancelled hdead hr
      exact ⟨k, fun _ heq => Option.some.inj heq ▸ hk⟩
  obtain ⟨k, hk⟩ := Classical.skolem.mp hlast
  refine ⟨k, fun t r hr => (hk t r hr).1, hall.trans (List.flatMap_congr fun t ht => ?_)⟩
  have hlt := hbounded.accepted ▸ List.mem_range.mp ht
  rw [hserial.eventsOf_eq hknown.recorded hgone, (hk t _ (List.getElem?_eq_getElem hlt)).2]

/-- A request that is tried again, and one that may be tried no more. -/
def stubbornRequest : Request Unit Nat :=
  ⟨"stubborn", (), ⟨none, .zero, .zero, 1⟩, alwaysRetry⟩

def onceRequest : Request Unit Nat :=
  ⟨"once", (), .noRetry, alwaysRetry⟩

/-- With no parallelism and no capacity there is still one worker and one place.  The second
request waits until the first one is done. -/
theorem bounded_and_serial_pair :
    let actions : List (PoolAction Unit Nat) :=
      [.send stubbornRequest, .take 0, .send onceRequest, .finish 0 (.failed 7) 1, .wake 0,
        .finish 0 .done 1, .take 0, .finish 0 (.failed 9) 1, .close, .leave 0]
    ∃ (p : Pool Unit Nat) (script : Nat → Nat → Outcome Nat) (k : Nat → Nat),
      (start 0 0).run actions = some p ∧ p.Bounded 0 0 [stubbornRequest, onceRequest] ∧
      p.taken = [0, 1] ∧ p.completed = 1 ∧ p.failures.length = 1 ∧ p.Follows script ∧
      stubbornRequest.LastAttempt (script 0) (k 0) ∧ onceRequest.LastAttempt (script 1) (k 1) ∧
      p.history = attempts 0 0 1 ((List.range' 1 (k 0)).map (script 0)) ++
        attempts 0 1 1 ((List.range' 1 (k 1)).map (script 1)) := by
  intro actions
  have hends : ((start 0 0).run actions).map (fun p => ((p.gone, p.cancelled,
      p.workers.any Worker.isDead), p.taken, p.accepted, p.completed, p.failures.length)) =
      some ((true, false, false), [0, 1], 2, 1, 1) := by decide +kernel
  obtain ⟨p, hrun, hp⟩ := Option.map_eq_some_iff.mp hends
  simp only [Prod.mk.injEq] at hp
  obtain ⟨⟨hgone, hcancelled, halive⟩, htaken, haccepted, hcompleted, hfailures⟩ := hp
  have hdead : .dead ∉ p.workers := fun hmem => List.any_eq_false.mp halive _ hmem rfl
  obtain ⟨hbounded, hserial⟩ := bounded_and_serial hrun
  obtain ⟨⟨script, hfollows⟩, hall⟩ := (hserial (by decide)).2 hgone hcancelled hdead
  obtain ⟨k, hlast, hhistory⟩ := hall script hfollows
  rw [haccepted] at hhistory
  exact ⟨p, script, k, hrun, hbounded, htaken, hcompleted, hfailures, hfollows, hlast 0 _ rfl,
    hlast 1 _ rfl, hhistory.trans (congrArg (_ ++ ·) (List.append_nil _))⟩

end Pool
end ImageUpload
