import ImageUpload.Pool.Request

/-!
A pool of workers that draw requests from one bounded queue.

Each worker carries one request at a time through all its attempts and keeps its
own tally of what became of its requests.  A worker that leaves hands its tally
in.  A worker that dies takes its tally and its request along, and only the
failures it had published before stay behind.

The pool is a machine whose actions may come in any order that `act` allows, so
a statement about all schedules is a statement about all lists of actions.
-/

namespace ImageUpload

structure Job (ω ε : Type) where
  ticket : Nat
  request : Request ω ε

structure Tally where
  completed : Nat
  failed : List String

namespace Tally

def empty : Tally := ⟨0, []⟩

end Tally

/-- What a worker is at.  Attempts are counted without the limit of a word of 32 bits. -/
inductive Worker (ω ε : Type) where
  | idle (tally : Tally)
  | running (tally : Tally) (job : Job ω ε) (attempt : Nat)
  | waiting (tally : Tally) (job : Job ω ε) (attempt : Nat) (e : ε) (delay : Duration)
  | left (tally : Tally)
  | dead

namespace Worker

variable {ω ε : Type}

def gone : Worker ω ε → Bool
  | left _ => true
  | dead => true
  | _ => false

def isDead : Worker ω ε → Bool
  | dead => true
  | _ => false

def isRunning : Worker ω ε → Bool
  | running .. => true
  | _ => false

def report : Worker ω ε → Tally
  | left tally => tally
  | _ => .empty

end Worker

inductive PoolEvent (ε : Type) where
  | began (worker ticket attempt : Nat)
  | ended (worker ticket attempt : Nat) (outcome : Outcome ε)

structure Pool (ω ε : Type) where
  workers : List (Worker ω ε)
  queue : List (Job ω ε)
  capacity : Nat
  /-- How many requests have been accepted. -/
  accepted : Nat
  closed : Bool
  cancelled : Bool
  /-- The failures published so far. -/
  failures : List (Failure ε)
  history : List (PoolEvent ε)

/-- Everything that can happen to a pool.  The end of an attempt brings along the
jitter of the wait that may follow it. -/
inductive PoolAction (ω ε : Type) where
  | send (request : Request ω ε)
  | close
  | tearDown
  | take (worker : Nat)
  | finish (worker : Nat) (outcome : Outcome ε) (jitter : Float)
  | wake (worker : Nat)
  | abandon (worker : Nat)
  | leave (worker : Nat)

namespace Pool

variable {ω ε : Type}

/-- A pool has at least one worker and room for at least one request. -/
def start (parallelism capacity : Nat) : Pool ω ε :=
  { workers := List.replicate (max 1 parallelism) (.idle .empty)
    queue := []
    capacity := max 1 capacity
    accepted := 0
    closed := false
    cancelled := false
    failures := []
    history := [] }

/-- No worker is left.  From now on every request is refused. -/
def gone (p : Pool ω ε) : Bool :=
  p.workers.all Worker.gone

def setWorker (p : Pool ω ε) (i : Nat) (w : Worker ω ε) : Pool ω ε :=
  { p with workers := p.workers.set i w }

def record (p : Pool ω ε) (e : PoolEvent ε) : Pool ω ε :=
  { p with history := p.history ++ [e] }

def send (p : Pool ω ε) (r : Request ω ε) : Option (Pool ω ε) :=
  if p.closed || p.gone || decide (p.capacity ≤ p.queue.length) then none
  else some { p with queue := p.queue ++ [⟨p.accepted, r⟩], accepted := p.accepted + 1 }

/-- An idle worker takes the oldest request and begins its first attempt. -/
def take (p : Pool ω ε) (i : Nat) : Option (Pool ω ε) :=
  match p.workers[i]?, p.queue with
  | some (.idle tally), job :: rest =>
    if p.cancelled then none
    else
      some (({ p with queue := rest }.setWorker i (.running tally job 1)).record
        (.began i job.ticket 1))
  | _, _ => none

def publish (p : Pool ω ε) (f : Failure ε) : Pool ω ε :=
  { p with failures := p.failures ++ [f] }

def fail (p : Pool ω ε) (i : Nat) (tally : Tally) (job : Job ω ε) (attempt : Nat)
    (e : AttemptError ε) : Pool ω ε :=
  (p.publish ⟨job.request.id, attempt, e⟩).setWorker i
    (.idle { tally with failed := tally.failed ++ [job.request.id] })

/-- What a worker does about a failed attempt.  It dies if judging the error panics,
and also if the wait before the next attempt is longer than any duration. -/
def judge (p : Pool ω ε) (i : Nat) (tally : Tally) (job : Job ω ε) (attempt : Nat) (e : ε)
    (jitter : Float) : Pool ω ε :=
  match job.request.retries e with
  | none => p.setWorker i .dead
  | some false => p.fail i tally job attempt (.failed e)
  | some true =>
    if job.request.policy.allowsRetry attempt then
      match job.request.policy.delay? attempt jitter with
      | some delay => p.setWorker i (.waiting tally job attempt e delay)
      | none => p.setWorker i .dead
    else p.fail i tally job attempt (.failed e)

/-- A running attempt ends.  The jitter of a wait is at least three quarters and
less than five quarters. -/
def finish (p : Pool ω ε) (i : Nat) (outcome : Outcome ε) (jitter : Float) :
    Option (Pool ω ε) :=
  match p.workers[i]? with
  | some (.running tally job attempt) =>
    if 0.75 ≤ jitter ∧ jitter < 1.25 then
      let p := p.record (.ended i job.ticket attempt outcome)
      match outcome with
      | .done => some (p.setWorker i (.idle { tally with completed := tally.completed + 1 }))
      | .panicked payload => some (p.fail i tally job attempt (.panicked payload.message))
      | .crashed => some (p.setWorker i .dead)
      | .failed e => some (p.judge i tally job attempt e jitter)
    else none
  | _ => none

/-- The wait is over and the next attempt begins. -/
def wake (p : Pool ω ε) (i : Nat) : Option (Pool ω ε) :=
  match p.workers[i]? with
  | some (.waiting tally job attempt _ _) =>
    if p.cancelled then none
    else
      some ((p.setWorker i (.running tally job (attempt + 1))).record
        (.began i job.ticket (attempt + 1)))
  | _ => none

/-- After the pool is torn down, nobody waits for another attempt. -/
def abandon (p : Pool ω ε) (i : Nat) : Option (Pool ω ε) :=
  match p.workers[i]? with
  | some (.waiting tally job attempt e _) =>
    if p.cancelled then some (p.fail i tally job attempt (.failed e)) else none
  | _ => none

/-- An idle worker leaves once the pool is torn down, or when the queue is closed
and drained. -/
def leave (p : Pool ω ε) (i : Nat) : Option (Pool ω ε) :=
  match p.workers[i]? with
  | some (.idle tally) =>
    if p.cancelled || (p.closed && p.queue.isEmpty) then some (p.setWorker i (.left tally))
    else none
  | _ => none

/-- The pool after an action, or `none` where the action cannot happen. -/
def act (p : Pool ω ε) : PoolAction ω ε → Option (Pool ω ε)
  | .send r => p.send r
  | .close => some { p with closed := true }
  | .tearDown => some { p with cancelled := true }
  | .take i => p.take i
  | .finish i outcome jitter => p.finish i outcome jitter
  | .wake i => p.wake i
  | .abandon i => p.abandon i
  | .leave i => p.leave i

def run (p : Pool ω ε) : List (PoolAction ω ε) → Option (Pool ω ε)
  | [] => some p
  | a :: rest => (p.act a).bind (·.run rest)

end Pool

structure PoolReport where
  completed : Nat
  failed : List String
  tornDown : Bool
  lostWorkers : Nat

namespace Pool

variable {ω ε : Type}

def report (p : Pool ω ε) : PoolReport :=
  let tallies := p.workers.map Worker.report
  { completed := (tallies.map Tally.completed).sum
    failed := tallies.flatMap Tally.failed
    tornDown := p.cancelled
    lostWorkers := p.workers.countP Worker.isDead }

end Pool
end ImageUpload
