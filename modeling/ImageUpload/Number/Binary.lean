import ImageUpload.Number.Natural

/-!
The exact value of a floating point number.
-/

namespace ImageUpload

/-- A finite value is `mantissa * 2 ^ exponent`, with its sign. -/
inductive Binary where
  | finite (negative : Bool) (mantissa : Nat) (exponent : Int)
  | infinite (negative : Bool)
  | nan

namespace Binary

def ofFloat (x : Float) : Binary :=
  let bits := x.toBits.toNat
  let negative := decide (2 ^ 63 ≤ bits)
  let exponent : Nat := bits / 2 ^ 52 % 2 ^ 11
  let fraction : Nat := bits % 2 ^ 52
  if exponent = 2047 then
    if fraction = 0 then infinite negative else nan
  else if exponent = 0 then finite negative fraction (-1074)
  else finite negative (fraction + 2 ^ 52) ((exponent : Int) - 1075)

/-- The value of a mantissa and an exponent as a quotient. -/
def quotient (mantissa : Nat) (exponent : Int) : Nat × Nat :=
  (mantissa * 2 ^ exponent.toNat, 2 ^ (-exponent).toNat)

end Binary

def wordToFloat (n : Nat) : Float :=
  n.toUInt64.toFloat

end ImageUpload
