import ImageUpload.Progress.Estimator

/-!
An estimator under a clock.  The first tick is due at once and each further one an
interval later.  A tick that comes more than a grace period late shifts the ticks
after it.
-/

namespace ImageUpload

structure Ticker where
  estimator : Estimator
  interval : Duration
  /-- The time in nanoseconds. -/
  now : Nat
  /-- When the next tick is due. -/
  due : Nat

namespace Ticker

def grace : Nat := (Duration.ofMillis 5).nanos

def start (parallelism already total window : Nat) (interval : Duration) : Ticker :=
  ⟨Estimator.start parallelism already total window, interval, 0, 0⟩

/-- A ticker needs an interval that is not zero.  Without one it dies before its
first tick. -/
def alive (t : Ticker) : Bool :=
  decide (0 < t.interval.nanos)

def report (t : Ticker) (bytes : Nat) : Ticker :=
  { t with estimator := t.estimator.report bytes }

/-- The tick that is due fires at `time`. -/
def fire (t : Ticker) (time : Nat) : Ticker :=
  { t with
    estimator := t.estimator.tick time
    due := if t.due + grace < time then time + t.interval.nanos else t.due + t.interval.nanos }

/-- How many ticks at most can be due before `limit`. -/
def ticksBefore (t : Ticker) (limit : Nat) : Nat :=
  if t.alive then (limit - t.due) / t.interval.nanos + 1 else 0

/-- Fire, at most `count` times, every tick due before `limit`.  A tick fires when it
is due or, if that time has passed, at once. -/
def fireBefore (limit : Nat) : (count : Nat) → Ticker → Ticker
  | 0, t => t
  | count + 1, t =>
    if t.due < limit then fireBefore limit count (t.fire (max t.now t.due)) else t

def settle (t : Ticker) : Ticker :=
  fireBefore (t.now + 1) (t.ticksBefore (t.now + 1)) t

/-- Time passes and each tick on the way fires when it is due.  A tick that is due at the
very end has yet to fire. -/
def sleep (t : Ticker) (span : Duration) : Ticker :=
  let limit := t.now + span.nanos
  { fireBefore limit (t.ticksBefore limit) t with now := limit }

/-- The clock jumps and the overdue ticks fire afterwards. -/
def jump (t : Ticker) (span : Duration) : Ticker :=
  let t := t.settle
  { t with now := t.now + span.nanos }.settle

def receiveAll (t : Ticker) : List ProgressRecord × Ticker :=
  let t := t.settle
  (t.estimator.records, { t with estimator := { t.estimator with records := [] } })

def stop (t : Ticker) : ProgressRecord :=
  if t.alive then t.estimator.stop else .unknown

end Ticker
end ImageUpload
