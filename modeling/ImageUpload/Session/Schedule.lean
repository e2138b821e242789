import ImageUpload.Session.Basic

/-!
A schedule for a session on which a range is read only when everything read before has
been written or has failed for good.  The session may be watched, and then a consumer
takes every event at once.  Otherwise the events wait, as far as there is room for them.
-/

namespace ImageUpload
namespace Session

variable {σ : Type}

def plainJitter : Float := 1

def workerAction? (s : Session σ) (i : Nat) : Option SessionAction :=
  match s.pool.workers[i]? with
  | some (.running ..) => some (.write i plainJitter)
  | some (.waiting ..) => some (if s.pool.cancelled then .abandon i else .wake i)
  | some (.idle _) =>
    if s.pool.cancelled then some (.leave i)
    else if s.pool.queue.isEmpty then (if s.pool.closed then some (.leave i) else none)
    else some (.take i)
  | _ => none

/-- What the first worker can do that can do anything. -/
def poolAction? (s : Session σ) : Option SessionAction :=
  (List.range s.pool.workers.length).findSome? s.workerAction?

def listenerAction? (watched : Bool) (s : Session σ) : Option SessionAction :=
  if s.heard < s.pool.failures.length then some .hear
  else if !s.estimator.records.isEmpty then some .forward
  else if watched && !s.waiting.isEmpty then some .consume
  else none

def producerAction (s : Session σ) : SessionAction :=
  if s.stream.hand.isSome then .offer
  else if s.stream.remaining.isEmpty then .close
  else .read

def dispatcherAction? (s : Session σ) : Option SessionAction :=
  match s.phase with
  | .streaming =>
    if s.stream.slot.isSome then some .receive
    else if s.stream.ended.isSome then some .shut
    else some s.producerAction
  | .sending _ => some (if s.pool.gone then .refuse else .send)
  | .refused => some (if s.stream.ended.isSome then .shut else s.producerAction)
  | .draining _ => some .stop
  | .stopping _ _ => some .conclude
  | .ended _ => none

def nextAction? (watched : Bool) (s : Session σ) : Option SessionAction :=
  s.poolAction?.or ((s.listenerAction? watched).or s.dispatcherAction?)

def follow [PageStore σ] (watched : Bool) : (actions : Nat) → Session σ → Session σ
  | 0, s => s
  | actions + 1, s =>
    match (s.nextAction? watched).bind s.act with
    | none => s
    | some s => follow watched actions s

/-- How many attempts a request takes at most.  They are counted in thirty-two bits. -/
def attemptLimit (p : RetryPolicy) : Nat :=
  max 1 (p.maxAttempts.getD (2 ^ 32))

/-- More actions than the schedule takes.  Each range is read, offered, received, queued
and taken, each attempt is a write and a wait, and each failure is heard of and its
event consumed.  Each worker leaves once. -/
def actionLimit (s : Session σ) : Nat :=
  (s.plan.ranges.length + 1) * (2 * attemptLimit s.retry + 16) + s.pool.workers.length

/-- The session at its end.  The estimator takes its first sample at once. -/
def complete [PageStore σ] (watched : Bool) (s : Session σ) : Session σ :=
  follow watched s.actionLimit ((s.tick 0).getD s)

end Session
end ImageUpload
