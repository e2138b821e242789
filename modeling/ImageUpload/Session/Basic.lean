import ImageUpload.Plan
import ImageUpload.Pool.Basic
import ImageUpload.Progress.Estimator
import ImageUpload.Session.Event
import ImageUpload.Session.Options
import ImageUpload.Source.Stream
import ImageUpload.Store.Basic

/-!
One upload session.  A producer reads the planned ranges ahead, a dispatcher makes a
request of each and queues it, the workers of a pool write, an estimator counts what
was acknowledged, a listener collects the ranges that failed, and a consumer takes the
events.  They run beside each other, so the session is a machine whose actions may come
in any order that `act` allows.

The session ends in order.  Once nothing is left to read, the queue is closed.  When no
worker is left and every failure has been heard of, the estimator stops, and when the
last of its records is passed on, the verdict is drawn.
-/

namespace ImageUpload

structure WriteRecord where
  chunk : Chunk
  result : Except WriteFault Unit

inductive Phase where
  | streaming
  /-- A request waits for room in the queue. -/
  | sending (c : Chunk)
  /-- The pool takes no more requests, and the producer is still at work. -/
  | refused
  /-- The queue is closed. -/
  | draining (e : Option TransferError)
  /-- The estimator has stopped. -/
  | stopping (e : Option TransferError) (last : ProgressRecord)
  | ended (result : Except UploadError SessionResult)

structure Session (σ : Type) where
  plan : Plan
  retry : RetryPolicy
  store : σ
  stream : Stream
  phase : Phase
  /-- How many requests have been queued. -/
  dispatched : Nat
  /-- Whether a request has been refused. -/
  cutShort : Bool
  pool : Pool Chunk StorageError
  /-- Every write so far. -/
  writes : List WriteRecord
  estimator : Estimator
  /-- Whether the estimator runs at all. -/
  measured : Bool
  /-- How many of the published failures the listener has heard of. -/
  heard : Nat
  failed : List FailedRange
  /-- The events that wait for the consumer. -/
  waiting : List UploadEvent
  /-- The events that the consumer has taken. -/
  taken : List UploadEvent

inductive SessionAction where
  /-- The producer reads a range, offers it, or has no more. -/
  | read
  | offer
  | close
  /-- The dispatcher takes a chunk, queues its request, meets with a refusal, or closes
  the queue. -/
  | receive
  | send
  | refuse
  | shut
  /-- A worker takes a request, writes, begins again, gives up, or leaves. -/
  | take (worker : Nat)
  | write (worker : Nat) (jitter : Float)
  | wake (worker : Nat)
  | abandon (worker : Nat)
  | leave (worker : Nat)
  /-- The listener hears of a failure. -/
  | hear
  /-- The estimator takes a sample, and a record is passed on. -/
  | tick (now : Nat)
  | forward
  | consume
  | stop
  | conclude

namespace Session

variable {σ : Type}

def eventDepth : Nat := 256

/-- An event is dropped if too many wait already. -/
def enqueue (waiting : List UploadEvent) (e : UploadEvent) : List UploadEvent :=
  if waiting.length < eventDepth then waiting ++ [e] else waiting

def emit (s : Session σ) (e : UploadEvent) : Session σ :=
  { s with waiting := enqueue s.waiting e }

def start (options : UploadOptions) (parallelism : Nat) (plan : Plan) (reader : Reader)
    (store : σ) : Session σ :=
  { plan := plan
    retry := options.retry
    store := store
    stream := Stream.start reader plan.ranges
    phase := .streaming
    dispatched := 0
    cutShort := false
    pool := Pool.start parallelism options.queueCapacity
    writes := []
    estimator := Estimator.start parallelism plan.already plan.size options.window
    measured := decide (0 < options.interval.nanos)
    heard := 0
    failed := []
    waiting := enqueue [] (.planned plan.size plan.effective plan.ranges.length)
    taken := [] }

def requestOf (retry : RetryPolicy) (c : Chunk) : Request Chunk StorageError :=
  ⟨c.range.id, c, retry, fun e => some e.isRetryable⟩

/-- The range of the plan that a name stands for. -/
def rangeOf? (s : Session σ) (id : String) : Option ByteRange :=
  s.plan.ranges.find? (fun r => r.id == id)

/-! ## The parts -/

/-- A move of the producer. -/
def produce (s : Session σ) (m : Stream.Move) : Option (Session σ) :=
  (s.stream.step m).map fun (_, stream) => { s with stream := stream }

def receive (s : Session σ) : Option (Session σ) :=
  match s.phase with
  | .streaming =>
    s.stream.receive.map fun (c, stream) => { s with stream := stream, phase := .sending c }
  | _ => none

def send (s : Session σ) : Option (Session σ) :=
  match s.phase with
  | .sending c =>
    (s.pool.send (requestOf s.retry c)).map fun pool =>
      { s with pool := pool, dispatched := s.dispatched + 1, phase := .streaming }
  | _ => none

/-- With no worker left the dispatcher takes no more chunks. -/
def refuse (s : Session σ) : Option (Session σ) :=
  match s.phase with
  | .sending _ =>
    if s.pool.gone then
      some { s with stream := s.stream.drop, cutShort := true, phase := .refused }
    else none
  | _ => none

/-- The producer has ended.  If it failed, the pool is torn down.  A producer that
panicked is taken for one that had no more to read. -/
def shut (s : Session σ) : Option (Session σ) :=
  let ready := match s.phase with
    | .streaming => s.stream.exhausted
    | .refused => s.stream.ended.isSome
    | _ => false
  if ready then
    let e := s.stream.error?
    some { s with
      pool := { s.pool with closed := true, cancelled := s.pool.cancelled || e.isSome }
      phase := .draining e }
  else none

def withPool (s : Session σ) (pool : Option (Pool Chunk StorageError)) : Option (Session σ) :=
  pool.map fun pool => { s with pool := pool }

def outcomeOf : Except WriteFault Unit → Outcome StorageError
  | .ok _ => .done
  | .error (.failed e) => .failed e
  | .error (.panicked text) => .panicked (.string text)

/-- A worker writes the chunk of its request.  The estimator hears of it once the store
has acknowledged the write. -/
def write [PageStore σ] (s : Session σ) (i : Nat) (jitter : Float) : Option (Session σ) :=
  match s.pool.workers[i]? with
  | some (.running _ job _) =>
    let c := job.request.work
    let (result, store) := PageStore.write s.store c.range c.data
    (s.pool.finish i (outcomeOf result) jitter).map fun pool =>
      { s with
        pool := pool
        store := store
        writes := s.writes ++ [⟨c, result⟩]
        estimator := if result.isOk then s.estimator.report c.range.length else s.estimator }
  | _ => none

/-- The listener takes the next failure, which belongs to a range of the plan. -/
def hear (s : Session σ) : Option (Session σ) :=
  (s.pool.failures[s.heard]?).map fun f =>
    let s := { s with heard := s.heard + 1 }
    match s.rangeOf? f.id with
    | none => s
    | some range =>
      let failed : FailedRange := ⟨range, f.attempts, f.error.message StorageError.message⟩
      { s with failed := s.failed ++ [failed] }.emit (.rangeFailed failed)

/-- The estimator runs until the end of the pool is known. -/
def tick (s : Session σ) (now : Nat) : Option (Session σ) :=
  match s.phase with
  | .stopping _ _ => none
  | .ended _ => none
  | _ => if s.measured then some { s with estimator := s.estimator.tick now } else none

def forward (s : Session σ) : Option (Session σ) :=
  s.estimator.receive.map fun (r, estimator) => { s with estimator := estimator }.emit (.progress r)

def consume (s : Session σ) : Option (Session σ) :=
  match s.waiting with
  | [] => none
  | e :: rest => some { s with waiting := rest, taken := s.taken ++ [e] }

/-- The last record, in which every acknowledged write is counted. -/
def lastRecord (s : Session σ) : ProgressRecord :=
  if s.measured then s.estimator.stop else .unknown

def stop (s : Session σ) : Option (Session σ) :=
  match s.phase with
  | .draining e =>
    if s.pool.gone ∧ s.heard = s.pool.failures.length then
      some { s with phase := .stopping e s.lastRecord }
    else none
  | _ => none

/-! ## The verdict -/

/-- The requests that no worker accounts for.  They were lost with their workers. -/
def unaccounted (s : Session σ) : Nat :=
  s.dispatched - (s.pool.report.completed + s.pool.report.failed.length)

def succeeded (s : Session σ) : Bool :=
  s.failed.isEmpty && s.pool.report.failed.isEmpty && decide (s.unaccounted = 0) && !s.cutShort

def outcome (s : Session σ) : SessionOutcome :=
  if s.succeeded then .completed
  else .incomplete (max s.failed.length s.pool.report.failed.length + s.unaccounted)

def bytesSent (s : Session σ) (last : ProgressRecord) : Nat :=
  last.processed - s.plan.already

def conclude (s : Session σ) : Option (Session σ) :=
  match s.phase with
  | .stopping e last =>
    if s.estimator.records.isEmpty then
      let bytes := s.bytesSent last
      match e with
      | some e =>
        some { s.emit (.finished .sourceFailed bytes last.percent) with
          phase := .ended (.error (.sourceRead e)) }
      | none =>
        some { s.emit (.finished s.outcome bytes last.percent) with
          phase := .ended (.ok ⟨s.succeeded, s.failed, bytes, last⟩) }
    else none
  | _ => none

def act [PageStore σ] (s : Session σ) : SessionAction → Option (Session σ)
  | .read => s.produce .read
  | .offer => s.produce .offer
  | .close => s.produce .close
  | .receive => s.receive
  | .send => s.send
  | .refuse => s.refuse
  | .shut => s.shut
  | .take i => s.withPool (s.pool.take i)
  | .write i jitter => s.write i jitter
  | .wake i => s.withPool (s.pool.wake i)
  | .abandon i => s.withPool (s.pool.abandon i)
  | .leave i => s.withPool (s.pool.leave i)
  | .hear => s.hear
  | .tick now => s.tick now
  | .forward => s.forward
  | .consume => s.consume
  | .stop => s.stop
  | .conclude => s.conclude

def run [PageStore σ] (s : Session σ) : List SessionAction → Option (Session σ)
  | [] => some s
  | a :: rest => (s.act a).bind (·.run rest)

def result? (s : Session σ) : Option (Except UploadError SessionResult) :=
  match s.phase with
  | .ended result => some result
  | _ => none

end Session
end ImageUpload
