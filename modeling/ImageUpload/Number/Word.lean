import ImageUpload.Number.Natural

/-!
Arithmetic in words of sixty-four bits.  An operation has a result only if no word
overflows.
-/

namespace ImageUpload
namespace Word

def add? (a b : Nat) : Option Nat :=
  if a + b < 2 ^ 64 then some (a + b) else none

def sub? (a b : Nat) : Option Nat :=
  if b ≤ a then some (a - b) else none

def mul? (a b : Nat) : Option Nat :=
  if a * b < 2 ^ 64 then some (a * b) else none

def ceilDiv? (a b : Nat) : Option Nat :=
  if b = 0 then none else if a % b = 0 then some (a / b) else add? (a / b) 1

/-- One piece of memory has no more bytes than a signed word counts.  Who asks for more
panics, and what is asked for below that is taken to be there. -/
def allocatable (bytes : Nat) : Bool :=
  decide (bytes < 2 ^ 63)

end Word
end ImageUpload
