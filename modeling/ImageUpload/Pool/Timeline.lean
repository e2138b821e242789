import ImageUpload.Pool.Script

/-!
A pool under a clock.  Every attempt takes a known time, the requests are sent as
fast as the queue takes them, and whatever can happen happens at once.

What happens at one time happens in turns.  Whoever can go on joins the end of one
line, and stands in it once at most.  Idle workers stand in a second line, before
the queue, and only the first of them looks into it.  The clock moves when the line
is empty, and of timers that end at the same time the one that was set first comes
first.  A turn consists of actions of the pool, so a timeline is one of its
schedules.
-/

namespace ImageUpload

/-- Those who take turns.  An attempt has a turn of its own when it gets under way
and when its time is up, and its worker comes after it. -/
inductive Turn where
  | worker (i : Nat)
  | attemptBegins (i : Nat)
  | attemptEnds (i : Nat)
  | sender
  | close
  | tearDown
deriving DecidableEq

structure Timeline (ε : Type) where
  pool : Pool (Script ε) ε
  /-- The time in nanoseconds. -/
  now : Nat
  /-- Those who can go on, in the order of their turns. -/
  line : List Turn
  /-- The idle workers in the order they came before the queue. -/
  idle : List Nat
  /-- Whose turn comes at what time, in the order the timers were set. -/
  timers : List (Nat × Turn)
  unsent : List (Request (Script ε) ε)
  /-- When each request was accepted. -/
  sent : List (Option Nat)
  /-- How long after the last request the queue is closed. -/
  closeAfter : Duration
  log : List LogEntry
  /-- When the last worker left. -/
  finished : Option Nat

namespace Timeline

variable {ε : Type}

/-- At first the workers have their turns, then the sender, and then whoever tears
the pool down at once. -/
def start (parallelism capacity : Nat) (requests : List (Request (Script ε) ε))
    (closeAfter : Duration) (tearDowns : List Nat) (tornDown : Bool) : Timeline ε :=
  let pool := Pool.start parallelism capacity
  let (atOnce, later) := tearDowns.partition (· == 0)
  { pool := { pool with cancelled := tornDown }
    now := 0
    line := (List.range pool.workers.length).map .worker ++ [.sender] ++
      atOnce.map (fun _ => .tearDown)
    idle := []
    timers := later.map (·, .tearDown)
    unsent := requests
    sent := []
    closeAfter := closeAfter
    log := []
    finished := none }

def jitter : Float := 1

/-- Whoever is not in the line joins its end. -/
def give (t : Timeline ε) (turn : Turn) : Timeline ε :=
  if turn ∈ t.line then t else { t with line := t.line ++ [turn] }

def giveFirstIdle (t : Timeline ε) : Timeline ε :=
  match t.idle with
  | [] => t
  | i :: _ => t.give (.worker i)

def setTimer (t : Timeline ε) (delay : Duration) (turn : Turn) : Timeline ε :=
  { t with timers := t.timers ++ [(t.now + delay.nanos, turn)] }

/-- The attempt a worker is at, with the ticket of its request and its number. -/
def attemptAt? (t : Timeline ε) (i : Nat) : Option (Nat × Nat × TimedAttempt ε) :=
  match t.pool.workers[i]? with
  | some (.running _ job n) => some (job.ticket, n, Script.attempt job.request.work n)
  | _ => none

/-- A worker turns to its next attempt.  A crash is immediate. -/
def attend (t : Timeline ε) (i : Nat) : Timeline ε :=
  match t.attemptAt? i with
  | some (_, _, ⟨_, .crashed⟩) =>
    { t with pool := (t.pool.finish i .crashed jitter).getD t.pool }
  | some _ => t.give (.attemptBegins i)
  | none => t

def endAttempt (t : Timeline ε) (i : Nat) : Timeline ε :=
  match t.attemptAt? i with
  | some (ticket, n, a) =>
    let entry : LogEntry := ⟨t.now - a.length.nanos, t.now, ticket, n⟩
    { t with log := t.log ++ [entry] }.give (.worker i)
  | none => t

/-- An attempt gets under way.  One that takes no time is over in the same turn. -/
def beginAttempt (t : Timeline ε) (i : Nat) : Timeline ε :=
  match t.attemptAt? i with
  | some (_, _, a) =>
    if a.length.nanos = 0 then t.endAttempt i else t.setTimer a.length (.attemptEnds i)
  | none => t

/-- An idle worker leaves if it may.  If it was the first, the next one looks into
the queue. -/
def depart (t : Timeline ε) (i : Nat) : Timeline ε :=
  match t.pool.leave i with
  | some pool =>
    let left := { t with pool := pool, idle := t.idle.erase i }
    if t.idle.head? = some i then left.giveFirstIdle else left
  | none => t

/-- The first idle worker takes the oldest request.  The sender then finds room, and
the next idle worker looks into the queue. -/
def takeFirst (t : Timeline ε) (i : Nat) : Timeline ε :=
  match t.pool.take i with
  | some pool =>
    let taken := { t with pool := pool, idle := t.idle.erase i }
    let told := if taken.unsent.isEmpty then taken else taken.give .sender
    told.giveFirstIdle.attend i
  | none => t.depart i

def serveIdle (t : Timeline ε) (i : Nat) : Timeline ε :=
  if t.pool.cancelled then t.depart i
  else
    let t := if i ∈ t.idle then t else { t with idle := t.idle ++ [i] }
    if t.idle.head? = some i then t.takeFirst i else t

/-- A worker is done waiting.  It gives its request up if the pool is torn down, and
else turns to the next attempt. -/
def serveWaiting (t : Timeline ε) (i : Nat) : Timeline ε :=
  match t.pool.abandon i with
  | some pool => { t with pool := pool }.serveIdle i
  | none =>
    match t.pool.wake i with
    | some pool => { t with pool := pool }.attend i
    | none => t

/-- A worker looks at how its attempt ended.  A wait of no length is over in the same
turn. -/
def serveEnded (t : Timeline ε) (i : Nat) (outcome : Outcome ε) : Timeline ε :=
  let pool := (t.pool.finish i outcome jitter).getD t.pool
  let t := { t with pool := pool }
  match pool.workers[i]? with
  | some (.idle _) => t.serveIdle i
  | some (.waiting _ _ _ _ delay) =>
    if t.pool.cancelled || delay.nanos == 0 then t.serveWaiting i
    else t.setTimer delay (.worker i)
  | _ => t

/-- The turn of a worker.  One that is at an attempt gets a turn only when the attempt
is over. -/
def serveWorker (t : Timeline ε) (i : Nat) : Timeline ε :=
  match t.pool.workers[i]? with
  | some (.idle _) => t.serveIdle i
  | some (.running _ job n) => t.serveEnded i (Script.attempt job.request.work n).outcome
  | some (.waiting ..) => t.serveWaiting i
  | _ => t

def close (t : Timeline ε) : Timeline ε :=
  { t with pool := { t.pool with closed := true } }.giveFirstIdle

/-- The turn of the sender.  It sends for as long as the queue has room, and sees to
the closing of the queue once all is sent. -/
def send (t : Timeline ε) : List (Request (Script ε) ε) → Timeline ε
  | [] => if t.closeAfter.nanos = 0 then t.close else t.setTimer t.closeAfter .close
  | r :: rest =>
    match t.pool.send r with
    | some pool =>
      { t with pool := pool, unsent := rest, sent := t.sent ++ [some t.now] }.giveFirstIdle.send
        rest
    | none => t

/-- The workers that are idle or wait for another attempt. -/
def resting (t : Timeline ε) : List Nat :=
  (List.range t.pool.workers.length).filter fun i =>
    t.pool.workers[i]?.any fun w => !w.isRunning && !w.gone

/-- The pool is torn down.  Those at rest learn of it at once, and the others after
their attempts. -/
def tearDown (t : Timeline ε) : Timeline ε :=
  if t.pool.cancelled then t
  else
    t.resting.foldl (fun t i => t.give (.worker i))
      { t with pool := { t.pool with cancelled := true } }

def serve (t : Timeline ε) : Turn → Timeline ε
  | .worker i => t.serveWorker i
  | .attemptBegins i => t.beginAttempt i
  | .attemptEnds i => t.endAttempt i
  | .sender => t.send t.unsent
  | .close => t.close
  | .tearDown => t.tearDown

/-- When the last worker has left, the requests that are still unsent are refused. -/
def settle (t : Timeline ε) : Timeline ε :=
  if t.pool.gone then
    { t with
      finished := some t.now
      sent := t.sent ++ t.unsent.map (fun _ => none)
      unsent := [] }
  else t

/-- With nobody in the line, time passes until the next timers end. -/
def advance (t : Timeline ε) : Option (Timeline ε) :=
  (t.timers.map Prod.fst).min?.map fun time =>
    let (due, later) := t.timers.partition (·.1 == time)
    { t with now := time, line := due.map Prod.snd, timers := later }

/-- One move: a turn or the passing of time.  None is left when the last worker has
left or nothing more can happen. -/
def move (t : Timeline ε) : Option (Timeline ε) :=
  if t.finished.isSome then none
  else
    match t.line with
    | turn :: rest => some ({ t with line := rest }.serve turn).settle
    | [] => t.advance

def runMoves : (moves : Nat) → Timeline ε → Timeline ε
  | 0, t => t
  | moves + 1, t =>
    match t.move with
    | some t => runMoves moves t
    | none => t

/-- Run from the start until the last worker has left.  An attempt costs four turns at
most and the passing of time twice, and its request one turn of the sender and two of
idle workers. -/
def complete (t : Timeline ε) : Timeline ε :=
  let horizon := (t.timers.map Prod.fst).foldl max 0
  let attempts := (t.unsent.map (Script.attemptsBound horizon)).sum
  runMoves (8 * attempts + 4 * (t.line.length + t.timers.length) + 4) t

end Timeline
end ImageUpload
