import Mathlib.Algebra.Order.BigOperators.Group.List
import Mathlib.Algebra.Order.Group.Nat
import Mathlib.Data.List.Nodup
import ImageUpload.Proofs.Pool.Death
import ImageUpload.Proofs.Pool.Effort

/-
How much of a pool is under way.

Between the sender and the end of a request there is a slot for it: a place in the queue or a
worker.  `Ledger` counts what is in the slots, and the attempts that have begun and not ended
are those of the workers, `Tracks`.  The queue is left in the order in which it was entered,
`InOrder`.  So what the pool has accepted and not settled is bounded by its workers and the room
in its queue, `held_up_le`.
-/

namespace ImageUpload

variable {ω ε : Type} {J : Float → Prop}

namespace PoolEvent

/-- The request whose first attempt begins. -/
def taken? : PoolEvent ε → Option Nat
  | began _ ticket attempt => if attempt = 1 then some ticket else none
  | ended .. => none

end PoolEvent

namespace Worker

/-- The attempt under way. -/
def attempt? : Worker ω ε → Option (Nat × Nat)
  | running _ job attempt => some (job.ticket, attempt)
  | _ => none

/-- A worker keeps the slot of a request that it has in hand or has died over. -/
def load : Worker ω ε → Nat
  | running .. => 1
  | waiting .. => 1
  | dead => 1
  | _ => 0

theorem load_le_one (w : Worker ω ε) : w.load ≤ 1 := by
  cases w with
  | running | waiting | dead => exact Nat.le_refl 1
  | idle | left => exact Nat.zero_le 1

end Worker

/-- A request that is settled gives its slot back, unless its worker has died over it. -/
theorem Request.Ends.count {r : Request ω ε} {cancelled : Bool} {attempt : Nat} {o : Outcome ε}
    {fate : Fate ε} (h : r.Ends J cancelled attempt o fate) (tally : Tally) (job : Job ω ε) :
    (Worker.after tally job.request.id fate : Worker ω ε).load + (if o.isDone then 1 else 0) +
      (Settlement.failure? ⟨job, attempt, fate⟩).toList.length = 1 := by
  cases h with
  | done | panicked | crashed | unjudged | final | exhausted | abandoned | overslept => rfl

namespace Pool

/-- The attempts that have begun and not ended, each with its worker and its request. -/
def attemptsOpen (history : List (PoolEvent ε)) : List (Nat × Nat × Nat) :=
  history.foldl
    (fun attempts e =>
      match e with
      | .began i ticket attempt => attempts ++ [(i, ticket, attempt)]
      | .ended i ticket attempt _ => attempts.erase (i, ticket, attempt))
    []

/-- The requests in the order in which they were taken from the queue. -/
def taken (p : Pool ω ε) : List Nat :=
  p.history.filterMap PoolEvent.taken?

/-- How many requests are done. -/
def completed (p : Pool ω ε) : Nat :=
  p.ends.countP fun e => e.2.isDone

def load (p : Pool ω ε) : Nat :=
  (p.workers.map Worker.load).sum

variable {p p' : Pool ω ε} {sent : List (Request ω ε)} {desks : List (Desk ω ε)}

/-! ## Attempts under way -/

theorem attemptsOpen_began (history : List (PoolEvent ε)) (i ticket attempt : Nat) :
    attemptsOpen (history ++ [.began i ticket attempt]) =
      attemptsOpen history ++ [(i, ticket, attempt)] :=
  List.foldl_append ..

theorem attemptsOpen_ended (history : List (PoolEvent ε)) (i ticket attempt : Nat)
    (o : Outcome ε) : attemptsOpen (history ++ [.ended i ticket attempt o]) =
      (attemptsOpen history).erase (i, ticket, attempt) :=
  List.foldl_append ..

/-- The attempts under way are those of the workers. -/
structure Tracks (workers : List (Worker ω ε)) (history : List (PoolEvent ε)) : Prop where
  nodup : (attemptsOpen history).Nodup
  iff : ∀ i a, (i, a) ∈ attemptsOpen history ↔ workers[i]?.bind Worker.attempt? = some a

variable {workers : List (Worker ω ε)} {history : List (PoolEvent ε)} {i : Nat} {w w' : Worker ω ε}

theorem bind_attempt?_set (hw : workers[i]? = some w) (w' : Worker ω ε) (j : Nat) :
    (workers.set i w')[j]?.bind Worker.attempt? =
      if i = j then w'.attempt? else workers[j]?.bind Worker.attempt? := by
  rw [List.getElem?_set]
  by_cases hj : i = j
  · rw [if_pos hj, if_pos hj, if_pos (List.getElem?_eq_some_iff.mp hw).1]
    rfl
  · rw [if_neg hj, if_neg hj]

theorem Tracks.began (h : Tracks workers history) (hw : workers[i]? = some w)
    (hfree : w.attempt? = none) {ticket attempt : Nat} (hw' : w'.attempt? = some (ticket, attempt)) :
    Tracks (workers.set i w') (history ++ [.began i ticket attempt]) := by
  have hnone : ∀ a, (i, a) ∉ attemptsOpen history := by
    intro a ha
    have hsome := (h.iff i a).mp ha
    rw [hw, Option.bind_some, hfree] at hsome
    exact nomatch hsome
  constructor
  · rw [attemptsOpen_began, List.nodup_append]
    refine ⟨h.nodup, List.nodup_singleton _, fun a ha b hb heq => hnone (ticket, attempt) ?_⟩
    rw [← List.mem_singleton.mp hb, ← heq]
    exact ha
  · intro j a
    rw [attemptsOpen_began, List.mem_append, List.mem_singleton, bind_attempt?_set hw, h.iff]
    by_cases hj : i = j
    · subst hj
      rw [if_pos rfl, hw', hw, Option.bind_some, hfree]
      simp [eq_comm]
    · rw [if_neg hj]
      simp [Ne.symm hj]

theorem Tracks.ended (h : Tracks workers history) (hw : workers[i]? = some w) {ticket attempt : Nat}
    (hbusy : w.attempt? = some (ticket, attempt)) (hw' : w'.attempt? = none) (o : Outcome ε) :
    Tracks (workers.set i w') (history ++ [.ended i ticket attempt o]) := by
  constructor
  · rw [attemptsOpen_ended]
    exact h.nodup.erase _
  · intro j a
    rw [attemptsOpen_ended, h.nodup.mem_erase_iff, bind_attempt?_set hw, h.iff]
    by_cases hj : i = j
    · subst hj
      rw [if_pos rfl, hw', hw, Option.bind_some, hbusy]
      simp [eq_comm]
    · rw [if_neg hj]
      simp [Ne.symm hj]

theorem Tracks.rest (h : Tracks workers history) (hw : workers[i]? = some w)
    (hfree : w.attempt? = none) (hw' : w'.attempt? = none) :
    Tracks (workers.set i w') history := by
  refine ⟨h.nodup, fun j a => ?_⟩
  rw [bind_attempt?_set hw, h.iff]
  by_cases hj : i = j
  · subst hj
    rw [if_pos rfl, hw', hw, Option.bind_some, hfree]
  · rw [if_neg hj]

/-- Each worker has one attempt under way at most. -/
theorem Tracks.nodup_workers (h : Tracks workers history) :
    ((attemptsOpen history).map Prod.fst).Nodup := by
  refine h.nodup.map_on ?_
  rintro ⟨i, a⟩ ha ⟨j, b⟩ hb (rfl : i = j)
  have hsame := ((h.iff i a).mp ha).symm.trans ((h.iff i b).mp hb)
  rw [Option.some.inj hsame]

theorem Tracks.length_le (h : Tracks workers history) :
    (attemptsOpen history).length ≤ workers.length := by
  have hsub : (attemptsOpen history).map Prod.fst ⊆ List.range workers.length := by
    intro i hi
    obtain ⟨⟨j, a⟩, ha, rfl⟩ := List.mem_map.mp hi
    obtain ⟨w, hw, -⟩ := Option.bind_eq_some_iff.mp ((h.iff j a).mp ha)
    exact List.mem_range.mpr (List.getElem?_eq_some_iff.mp hw).1
  have hle := (h.nodup_workers.subperm hsub).length_le
  rwa [List.length_map, List.length_range] at hle

theorem Tracks.move (h : Tracks p.workers p.history) (hp : p.Moves p') :
    Tracks p'.workers p'.history := by
  cases hp with
  | take i tally job rest hw hq hcancelled => exact h.began hw rfl rfl
  | wake i tally job attempt e delay hw hcancelled => exact h.began hw rfl rfl
  | abandon i tally job attempt e delay hw hcancelled => exact h.rest hw rfl rfl
  | leave i tally hw hidle => exact h.rest hw rfl rfl

theorem Tracks.finish (h : Tracks p.workers p.history) {o : Outcome ε} {jitter : Float}
    (hp : p.finish i o jitter = some p') : Tracks p'.workers p'.history := by
  obtain ⟨tally, job, attempt, hw, hcases⟩ := finish_cases (J := fun _ => True) trivial hp
  rcases hcases with ⟨fate, -, rfl⟩ | ⟨e, delay, -, -, rfl⟩
  · refine h.ended hw rfl ?_ o
    cases fate with
    | completed | failed | lost => rfl
  · exact h.ended hw rfl rfl o

/-! ## The order of the queue -/

/-- The requests that were taken and those that wait are all that were accepted, in this order. -/
def InOrder (p : Pool ω ε) : Prop :=
  p.taken ++ p.queue.map Job.ticket = List.range p.accepted

theorem taken_record (p : Pool ω ε) (e : PoolEvent ε) :
    (p.record e).taken = p.taken ++ e.taken?.toList := by
  unfold taken record
  rw [List.filterMap_append, List.filterMap_cons]
  cases e.taken? with
  | none | some => rfl

/-- Only a worker that takes a request makes the first attempt at it. -/
theorem taken_wake (p : Pool ω ε) (i ticket attempt : Nat) (hattempt : 0 < attempt) :
    (p.record (.began i ticket (attempt + 1))).taken = p.taken := by
  rw [taken_record, PoolEvent.taken?, if_neg (by omega)]
  exact List.append_nil _

theorem taken_ended (p : Pool ω ε) (i ticket attempt : Nat) (o : Outcome ε) :
    (p.record (.ended i ticket attempt o)).taken = p.taken := by
  rw [taken_record]
  exact List.append_nil _

theorem Accounts.attempt_pos (h : p.Accounts J sent desks) {tally : Tally} {job : Job ω ε}
    {attempt : Nat} {e : ε} {delay : Duration}
    (hw : p.workers[i]? = some (.waiting tally job attempt e delay)) : 0 < attempt := by
  obtain ⟨settled, -, hattempt, -, hlast⟩ := h.agrees_at hw
  rw [← hattempt, List.length_pos_iff]
  intro hnil
  rw [hnil] at hlast
  exact nomatch hlast

theorem InOrder.move (h : p.InOrder) (hacc : p.Accounts J sent desks) (hp : p.Moves p') :
    p'.InOrder := by
  unfold InOrder at h
  cases hp with
  | take i tally job rest hw hq hcancelled =>
    show (p.record _).taken ++ rest.map Job.ticket = List.range p.accepted
    rw [← h, taken_record, hq, List.map_cons, List.append_assoc]
    rfl
  | wake i tally job attempt e delay hw hcancelled =>
    show (p.record _).taken ++ p.queue.map Job.ticket = List.range p.accepted
    rw [taken_wake p i job.ticket attempt (hacc.attempt_pos hw)]
    exact h
  | abandon i tally job attempt e delay hw hcancelled => exact h
  | leave i tally hw hidle => exact h

theorem InOrder.finish (h : p.InOrder) {o : Outcome ε} {jitter : Float}
    (hp : p.finish i o jitter = some p') : p'.InOrder := by
  obtain ⟨tally, job, attempt, hw, hcases⟩ := finish_cases (J := fun _ => True) trivial hp
  have hkeep : (p.record (.ended i job.ticket attempt o)).InOrder := by
    unfold InOrder
    rw [taken_ended]
    exact h
  rcases hcases with ⟨fate, -, rfl⟩ | ⟨e, delay, -, -, rfl⟩
  · exact hkeep
  · exact hkeep

/-- What is taken is a beginning of what was sent, in the order of sending. -/
theorem InOrder.taken_eq (h : p.InOrder) :
    p.taken = List.range (p.accepted - p.queue.length) ∧ p.queue.length ≤ p.accepted := by
  have hlength := congrArg List.length h
  rw [List.length_append, List.length_map, List.length_range] at hlength
  have htake := congrArg (List.take p.taken.length) h
  rw [List.take_left, List.take_range] at htake
  refine ⟨htake.trans (congrArg List.range ?_), ?_⟩
  · omega
  · omega

/-- What waits is the rest of what was sent. -/
theorem InOrder.queue_eq (h : p.InOrder) (hacc : p.Accounts J sent desks) :
    p.queue = (numbered sent).drop (p.accepted - p.queue.length) := by
  obtain ⟨htaken, hle⟩ := h.taken_eq
  have haccepted := hacc.accepted
  have hlength : p.taken.length = p.accepted - p.queue.length := by
    rw [htaken, List.length_range]
  unfold InOrder at h
  refine List.ext_getElem ?_ fun j hj _ => ?_
  · rw [List.length_drop, length_numbered]
    omega
  · have hticket : p.queue[j].ticket = p.accepted - p.queue.length + j := by
      have hget : (List.range p.accepted)[p.taken.length + j]? = some p.queue[j].ticket := by
        rw [← h, List.getElem?_append_right (Nat.le_add_right ..), Nat.add_sub_cancel_left,
          List.getElem?_map, List.getElem?_eq_getElem hj]
        rfl
      obtain ⟨_, heq⟩ := List.getElem?_eq_some_iff.mp hget
      rw [List.getElem_range] at heq
      omega
    have hsent := mem_numbered.mp (hacc.jobs.mem_iff.mp
      (List.mem_append_left _ (List.getElem_mem hj)))
    obtain ⟨_, hrequest⟩ := List.getElem?_eq_some_iff.mp hsent
    rw [List.getElem_drop]
    simp only [numbered, List.getElem_mapIdx, ← hticket, hrequest]

/-! ## The slots -/

/-- Every accepted request has a slot or is settled. -/
def Ledger (p : Pool ω ε) : Prop :=
  p.accepted = p.queue.length + p.load + p.completed + p.failures.length

theorem load_set (hw : p.workers[i]? = some w) (w' : Worker ω ε) :
    (p.setWorker i w').load + w.load = p.load + w'.load :=
  sum_map_set Worker.load hw w'

theorem completed_ended (p : Pool ω ε) (i ticket attempt : Nat) (o : Outcome ε) :
    (p.record (.ended i ticket attempt o)).completed = p.completed + if o.isDone then 1 else 0 := by
  unfold completed
  rw [ends_ended, List.countP_append, List.countP_singleton]

theorem completed_began (p : Pool ω ε) (i ticket attempt : Nat) :
    (p.record (.began i ticket attempt)).completed = p.completed := by
  unfold completed
  rw [ends_began]

theorem Ledger.move (h : p.Ledger) (hp : p.Moves p') : p'.Ledger := by
  unfold Ledger at h
  cases hp with
  | take i tally job rest hw hq hcancelled =>
    have hload := load_set hw (.running tally job 1)
    have hcompleted := completed_began p i job.ticket 1
    rw [hq, List.length_cons] at h
    change _ + 0 = _ + 1 at hload
    show p.accepted = rest.length + (p.setWorker i _).load + (p.record _).completed +
      p.failures.length
    omega
  | wake i tally job attempt e delay hw hcancelled =>
    have hload := load_set hw (.running tally job (attempt + 1))
    have hcompleted := completed_began p i job.ticket (attempt + 1)
    change _ + 1 = _ + 1 at hload
    show p.accepted = p.queue.length + (p.setWorker i _).load + (p.record _).completed +
      p.failures.length
    omega
  | abandon i tally job attempt e delay hw hcancelled =>
    have hload := load_set hw (.after tally job.request.id (.failed (.failed e)))
    change _ + 1 = _ + 0 at hload
    show p.accepted = p.queue.length +
      (p.setWorker i (.after tally job.request.id (.failed (.failed e)))).load + p.completed +
      (p.failures ++ [_]).length
    rw [List.length_append, List.length_singleton]
    omega
  | leave i tally hw hidle =>
    have hload := load_set hw (.left tally)
    change _ + 0 = _ + 0 at hload
    show p.accepted = p.queue.length + (p.setWorker i _).load + p.completed + p.failures.length
    omega

theorem Ledger.finish (h : p.Ledger) {o : Outcome ε} {jitter : Float}
    (hp : p.finish i o jitter = some p') : p'.Ledger := by
  obtain ⟨tally, job, attempt, hw, hcases⟩ := finish_cases (J := fun _ => True) trivial hp
  have hcompleted := completed_ended p i job.ticket attempt o
  unfold Ledger at h
  rcases hcases with ⟨fate, hends, rfl⟩ | ⟨e, delay, rfl, -, rfl⟩
  · have hload := load_set hw (.after tally job.request.id fate)
    have hcount := hends.count tally job
    change _ + 1 = _ at hload
    show p.accepted = p.queue.length + (p.setWorker i _).load + (p.record _).completed +
      (p.failures ++ _).length
    rw [List.length_append]
    omega
  · have hload := load_set hw (.waiting tally job attempt e delay)
    change _ + 1 = _ + 1 at hload
    change _ = p.completed + 0 at hcompleted
    show p.accepted = p.queue.length + (p.setWorker i _).load + (p.record _).completed +
      p.failures.length
    omega

theorem load_le (p : Pool ω ε) : p.load ≤ p.workers.length := by
  have hle := List.sum_le_card_nsmul (p.workers.map Worker.load) 1 fun n hn => by
    obtain ⟨w, -, rfl⟩ := List.mem_map.mp hn
    exact w.load_le_one
  simpa [load] using hle

/-! ## Runs -/

/-- The workers stay as many as they are, and no worker puts a request in the queue. -/
theorem Moves.size (h : p.Moves p') : p'.workers.length = p.workers.length ∧
    p'.capacity = p.capacity ∧ p'.queue.length ≤ p.queue.length := by
  cases h with
  | take i tally job rest hw hq hcancelled =>
    exact ⟨List.length_set, rfl, by rw [hq]; exact Nat.le_succ _⟩
  | wake | abandon | leave => exact ⟨List.length_set, rfl, Nat.le_refl _⟩

theorem size_of_finish {o : Outcome ε} {jitter : Float} (hp : p.finish i o jitter = some p') :
    p'.workers.length = p.workers.length ∧ p'.capacity = p.capacity ∧
      p'.queue.length ≤ p.queue.length := by
  obtain ⟨tally, job, attempt, hw, hcases⟩ := finish_cases (J := fun _ => True) trivial hp
  rcases hcases with ⟨fate, -, rfl⟩ | ⟨e, delay, -, -, rfl⟩
  · exact ⟨List.length_set, rfl, Nat.le_refl _⟩
  · exact ⟨List.length_set, rfl, Nat.le_refl _⟩

/-- A pool in the course of a run, with so many workers and so much room in its queue. -/
structure Kept (parallelism capacity : Nat) (p : Pool ω ε) : Prop where
  workers : p.workers.length = max 1 parallelism
  capacity : p.capacity = max 1 capacity
  room : p.queue.length ≤ p.capacity
  tracks : Tracks p.workers p.history
  inOrder : p.InOrder
  ledger : p.Ledger

variable {parallelism capacity : Nat}

theorem kept_start (parallelism capacity : Nat) :
    (start parallelism capacity : Pool ω ε).Kept parallelism capacity where
  workers := List.length_replicate
  capacity := rfl
  room := Nat.zero_le _
  tracks := by
    refine ⟨List.nodup_nil, fun i a => ⟨nofun, fun h => ?_⟩⟩
    obtain ⟨w, hw, ha⟩ := Option.bind_eq_some_iff.mp h
    rw [(List.mem_replicate.mp (List.mem_of_getElem? hw)).2] at ha
    exact nomatch ha
  inOrder := rfl
  ledger := by
    have hidle : (start parallelism capacity : Pool ω ε).load = 0 := by
      unfold load start
      rw [List.map_replicate, List.sum_replicate]
      rfl
    unfold Ledger
    rw [hidle]
    rfl

theorem Kept.move (h : p.Kept parallelism capacity) (hacc : p.Accounts J sent desks)
    (hp : p.Moves p') : p'.Kept parallelism capacity := by
  obtain ⟨hworkers, hcapacity, hqueue⟩ := hp.size
  exact ⟨hworkers.trans h.workers, hcapacity.trans h.capacity,
    hcapacity ▸ hqueue.trans h.room, h.tracks.move hp, h.inOrder.move hacc hp, h.ledger.move hp⟩

theorem Kept.finish (h : p.Kept parallelism capacity) {o : Outcome ε} {jitter : Float}
    (hp : p.finish i o jitter = some p') : p'.Kept parallelism capacity := by
  obtain ⟨hworkers, hcapacity, hqueue⟩ := size_of_finish hp
  exact ⟨hworkers.trans h.workers, hcapacity.trans h.capacity,
    hcapacity ▸ hqueue.trans h.room, h.tracks.finish hp, h.inOrder.finish hp, h.ledger.finish hp⟩

theorem Kept.send (h : p.Kept parallelism capacity) {r : Request ω ε} (hp : p.send r = some p') :
    p'.Kept parallelism capacity := by
  obtain ⟨-, -, hroom⟩ := room_of_send hp
  have hinOrder := h.inOrder
  have hledger := h.ledger
  unfold InOrder at hinOrder
  unfold Ledger at hledger
  rw [send_eq hp]
  refine ⟨h.workers, h.capacity, ?_, h.tracks, ?_, ?_⟩
  · rw [List.length_append]
    exact hroom
  · show p.taken ++ (p.queue ++ [_]).map Job.ticket = List.range (p.accepted + 1)
    rw [List.map_append, ← List.append_assoc, hinOrder, List.range_succ]
    rfl
  · show p.accepted + 1 = (p.queue ++ [_]).length + p.load + p.completed + p.failures.length
    rw [List.length_append, List.length_singleton]
    omega

theorem kept_act {a : PoolAction ω ε} (h : p.Kept parallelism capacity)
    (hacc : p.Accounts J sent desks) (hp : p.act a = some p') : p'.Kept parallelism capacity := by
  cases a with
  | send r => exact h.send hp
  | close =>
    injection hp with hp
    exact hp ▸ { h with }
  | tearDown =>
    injection hp with hp
    exact hp ▸ { h with }
  | finish i o jitter => exact h.finish hp
  | take i => exact h.move hacc (moves_of_take hp)
  | wake i => exact h.move hacc (moves_of_wake hp)
  | abandon i => exact h.move hacc (moves_of_abandon hp)
  | leave i => exact h.move hacc (moves_of_leave hp)

theorem kept_run {actions : List (PoolAction ω ε)}
    (hp : (start parallelism capacity).run actions = some p) : p.Kept parallelism capacity :=
  (known_start parallelism capacity).run_keeps
    (fun _ _ _ _ hknown hkept hact => by
      obtain ⟨desks, hacc⟩ := hknown.accounts
      exact kept_act hkept hacc hact)
    (kept_start parallelism capacity) hp

end Pool
end ImageUpload
