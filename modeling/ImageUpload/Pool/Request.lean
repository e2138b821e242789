import ImageUpload.Retry

/-!
Requests to a pool of workers, what an attempt at one comes to, and how a request
fails for good.
-/

namespace ImageUpload

/-- What a panic carries: a string, or a value of another type that would read like this. -/
inductive PanicPayload where
  | string (text : String)
  | other (text : String)

/-- What is told of a panic.  Only a string can be read off it. -/
def PanicPayload.message : PanicPayload → String
  | string text => text
  | other _ => "non-string panic payload"

/-- What one attempt comes to.  A panic inside the attempt fails its request.  A
crash is a panic before the attempt is under way, which takes its worker along. -/
inductive Outcome (ε : Type) where
  | done
  | failed (e : ε)
  | panicked (payload : PanicPayload)
  | crashed

/-- A unit of work with the rules for trying it again.  `retries` judges the error
of an attempt, and may itself panic. -/
structure Request (ω ε : Type) where
  id : String
  work : ω
  policy : RetryPolicy
  retries : ε → Option Bool

def alwaysRetry {ε : Type} : ε → Option Bool :=
  fun _ => some true

inductive AttemptError (ε : Type) where
  | failed (e : ε)
  | panicked (text : String)

namespace AttemptError

variable {ε : Type}

def message (text : ε → String) : AttemptError ε → String
  | failed e => text e
  | panicked t => s!"attempt panicked: {t}"

end AttemptError

/-- A request that failed for good, after so many attempts.  They are counted without the
limit of a word of 32 bits. -/
structure Failure (ε : Type) where
  id : String
  attempts : Nat
  error : AttemptError ε

namespace Failure

variable {ε : Type}

def message (text : ε → String) (f : Failure ε) : String :=
  s!"request {f.id} failed after {f.attempts} attempt(s): {f.error.message text}"

end Failure
end ImageUpload
