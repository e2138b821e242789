import ImageUpload.Number.Binary

/-!
The floating point number that a literal stands for.  Digits are gathered into a word
for as long as it holds them, and the word is then multiplied or divided by a power of
ten, so that the result can be off by the rounding of these steps.  A number past the
largest finite one is none.
-/

namespace ImageUpload
namespace Json
namespace Number

/-- The word that digits make behind the word `n`, and the digits that do not fit. -/
def gather (n : Nat) : List Char → Nat × List Char
  | [] => (n, [])
  | c :: rest =>
    let more := n * 10 + (c.toNat - '0'.toNat)
    if more < 2 ^ 64 then gather more rest else (n, c :: rest)

def powerOfTen (n : Nat) : Float :=
  Float.ofScientific 1 false n

/-- Powers of ten are finite up to this one. -/
def topPower : Nat := 308

def raise? (x : Float) (n : Nat) : Option Float :=
  if topPower < n then if x == 0 then some x else none
  else
    let y := x * powerOfTen n
    if y.isFinite then some y else none

def lower (x : Float) (n : Nat) : Float :=
  if n ≤ topPower then x / powerOfTen n
  else if n ≤ 2 * topPower then x / powerOfTen topPower / powerOfTen (n - topPower)
  else 0

def scale? (x : Float) : Int → Option Float
  | .ofNat n => raise? x n
  | .negSucc n => some (lower x (n + 1))

/-- The power of ten that an exponent with its mark asks for.  It is clamped to a word
of thirty-two bits. -/
def exponentOf (cs : List Char) : Int :=
  let value (cs : List Char) : Nat := min (Nat.ofDigitChars 10 cs 0) (2 ^ 31)
  match cs.drop 1 with
  | '-' :: digits => -(value digits : Int)
  | '+' :: digits => value digits
  | digits => value digits

def unsigned? (cs : List Char) : Option Float :=
  let whole := cs.takeWhile Char.isDigit
  let rest := cs.dropWhile Char.isDigit
  let fraction := match rest with
    | '.' :: rest => rest.takeWhile Char.isDigit
    | _ => []
  let mark := cs.dropWhile fun c => c != 'e' && c != 'E'
  let (n, unread) := gather 0 whole
  let (n, lost) := gather n fraction
  scale? (wordToFloat n) (unread.length - (fraction.length - lost.length : Nat) + exponentOf mark)

def float? (written : String) : Option Float :=
  match written.toList with
  | '-' :: rest => (unsigned? rest).map fun x => -x
  | cs => unsigned? cs

end Number
end Json
end ImageUpload
