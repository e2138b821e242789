import ImageUpload.Time.Duration

/-!
How often a request is attempted and how long it waits between attempts.
-/

namespace ImageUpload

structure RetryPolicy where
  /-- All attempts that are allowed, the first included.  `none` sets no limit. -/
  maxAttempts : Option Nat
  initialDelay : Duration
  maxDelay : Duration
  backoffFactor : Float

namespace RetryPolicy

def standard : RetryPolicy :=
  ⟨some 5, .ofMillis 250, .ofSeconds 15, 2⟩

def unbounded : RetryPolicy :=
  { standard with maxAttempts := none }

def noRetry : RetryPolicy :=
  { standard with maxAttempts := some 1 }

def allowsRetry (p : RetryPolicy) (made : Nat) : Bool :=
  p.maxAttempts.all (made < ·)

/-- A power by repeated squaring, on `bits` binary digits of the exponent.  The
order of the multiplications decides the rounding. -/
def powerLoop : (bits : Nat) → (product x : Float) → (n : Nat) → Float
  | 0, product, _, _ => product
  | bits + 1, product, x, n =>
    let product := if n % 2 = 1 then product * x else product
    if n / 2 = 0 then product else powerLoop bits product (x * x) (n / 2)

def power (x : Float) (n : Nat) : Float :=
  powerLoop 32 1 x n

/-- The lesser of two numbers, or the other one if one is not a number. -/
def lesser (x y : Float) : Float :=
  if x.isNaN then y else if y.isNaN then x else if x < y then x else y

/-- The greater of two numbers, or the other one if one is not a number. -/
def greater (x y : Float) : Float :=
  if x.isNaN then y else if y.isNaN then x else if x < y then y else x

/-- The wait after failed attempt number `attempt`, before jitter. -/
def baseDelay (p : RetryPolicy) (attempt : Nat) : Duration :=
  let scaled := p.initialDelay.toSeconds * power p.backoffFactor (min (attempt - 1) 63)
  (Duration.ofSeconds? (greater (lesser scaled p.maxDelay.toSeconds) 0)).getD p.maxDelay

/-- The wait under a jitter factor.  There is none if the factor takes it past what
a duration can hold. -/
def delay? (p : RetryPolicy) (attempt : Nat) (jitter : Float) : Option Duration :=
  Duration.ofSeconds? (jitter * (p.baseDelay attempt).toSeconds)

end RetryPolicy
end ImageUpload
