import ImageUpload.Number.Binary
import ImageUpload.Number.Rounding

/-!
Floating point numbers with a fixed number of decimal places.  The exact value is
rounded once, and a tie goes to the even neighbour.
-/

namespace ImageUpload

def padLeft (width : Nat) (s : String) : String :=
  String.ofList (List.replicate (width - s.length) ' ') ++ s

/-- A natural number of `10 ^ -places` as decimal text. -/
def scaledText (places n : Nat) : String :=
  let digits := Nat.toDigits 10 n
  let digits := List.replicate (places + 1 - digits.length) '0' ++ digits
  let cut := digits.length - places
  let whole := String.ofList (digits.take cut)
  if places = 0 then whole else whole ++ "." ++ String.ofList (digits.drop cut)

def fixedPlaces (places : Nat) (x : Float) : String :=
  match Binary.ofFloat x with
  | .nan => "NaN"
  | .infinite negative => if negative then "-inf" else "inf"
  | .finite negative mantissa exponent =>
    let (num, den) := Binary.quotient mantissa exponent
    let text := scaledText places (roundDiv (num * 10 ^ places) den)
    if negative then "-" ++ text else text

end ImageUpload
