import ImageUpload.Progress.Record
import ImageUpload.Progress.Throughput

/-!
The progress of a running session.  Reports of transferred bytes queue up in an
inbox and are counted before the next sample is taken.  A tick takes a sample and
offers a record to a bounded queue.  While the queue is full, records are dropped
and nobody waits.
-/

namespace ImageUpload

/-- The sum of two sixty-four bit words, capped at the largest. -/
def addCapped (a b : Nat) : Nat :=
  min (a + b) (2 ^ 64 - 1)

structure Estimator where
  processed : Nat
  total : Nat
  inbox : List Nat
  speed : Throughput
  records : List ProgressRecord

namespace Estimator

/-- How many records may wait. -/
def depth : Nat := 16

/-- The window holds at least one sample for each worker. -/
def start (parallelism already total window : Nat) : Estimator :=
  ⟨already, total, [], Throughput.ofWindow (max window parallelism), []⟩

def report (e : Estimator) (bytes : Nat) : Estimator :=
  { e with inbox := e.inbox ++ [bytes] }

/-- Count every report in the inbox. -/
def settle (e : Estimator) : Estimator :=
  { e with processed := e.inbox.foldl addCapped e.processed, inbox := [] }

def record (e : Estimator) : ProgressRecord :=
  .compute e.processed e.total e.speed.bytesPerSecond

def sample (e : Estimator) (now : Nat) : Estimator :=
  let e := { e with speed := e.speed.add e.processed now }
  if e.records.length < depth then { e with records := e.records ++ [e.record] } else e

/-- A tick at `now` nanoseconds.  The reports made before it come first. -/
def tick (e : Estimator) (now : Nat) : Estimator :=
  e.settle.sample now

def receive (e : Estimator) : Option (ProgressRecord × Estimator) :=
  match e.records with
  | [] => none
  | r :: rest => some (r, { e with records := rest })

/-- The final record.  It counts every report made so far. -/
def stop (e : Estimator) : ProgressRecord :=
  e.settle.record

end Estimator
end ImageUpload
