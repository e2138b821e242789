import ImageUpload.Pool.Basic

/-!
Attempts that take a known time, and the record of when they were under way.
-/

namespace ImageUpload

structure TimedAttempt (ε : Type) where
  length : Duration
  outcome : Outcome ε

/-- The attempts at a request.  The last one repeats. -/
abbrev Script (ε : Type) := List (TimedAttempt ε)

namespace Script

variable {ε : Type}

def attempt (s : Script ε) (n : Nat) : TimedAttempt ε :=
  match s[n - 1]? with
  | some a => a
  | none => s.getLast?.getD ⟨.zero, .done⟩

/-- No request is attempted more often than this before `horizon`: its script runs
out, then its policy does, or else the pool is torn down while attempts that take
time fill the time until then. -/
def attemptsBound (horizon : Nat) (r : Request (Script ε) ε) : Nat :=
  r.work.length + r.policy.maxAttempts.getD horizon + 2

end Script

structure LogEntry where
  start : Nat
  finish : Nat
  ticket : Nat
  attempt : Nat

end ImageUpload
