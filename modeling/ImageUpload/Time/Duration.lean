import ImageUpload.Number.Binary
import ImageUpload.Number.Rounding

namespace ImageUpload

structure Duration where
  nanos : Nat
  deriving DecidableEq

namespace Duration

def zero : Duration := ⟨0⟩

def ofMillis (ms : Nat) : Duration := ⟨ms * 1000000⟩

def ofSeconds (s : Nat) : Duration := ⟨s * 1000000000⟩

def ofParts (secs subsec : Nat) : Duration := ⟨secs * 1000000000 + subsec⟩

def secs (d : Duration) : Nat := d.nanos / 1000000000

def subsec (d : Duration) : Nat := d.nanos % 1000000000

def toSeconds (d : Duration) : Float :=
  wordToFloat d.secs + wordToFloat d.subsec / 1e9

/-- The span nearest to a number of seconds.  It exists for the numbers from zero
up to, and without, `2 ^ 64`. -/
def ofSeconds? (x : Float) : Option Duration :=
  match Binary.ofFloat x with
  | .finite negative mantissa exponent =>
    let (num, den) := Binary.quotient mantissa exponent
    if (negative ∧ mantissa ≠ 0) ∨ den * 2 ^ 64 ≤ num then none
    else some ⟨roundDiv (num * 1000000000) den⟩
  | _ => none

end Duration
end ImageUpload
