import ImageUpload.Number.Natural

namespace ImageUpload
namespace Toml

/-- A value of a settings file.  Nobody asks for the value of a number with a fraction. -/
inductive Scalar where
  | text (s : String)
  | integer (n : Int)
  | boolean (b : Bool)
  | float
  deriving DecidableEq

namespace Scalar

/-- Digits without the underscores between them.  An underscore stands between two
digits. -/
def ungroup? (digit : Char → Bool) : List Char → Option (List Char)
  | [] => none
  | [c] => if digit c then some [c] else none
  | c :: '_' :: rest => if digit c then (ungroup? digit rest).map (c :: ·) else none
  | c :: rest => if digit c then (ungroup? digit rest).map (c :: ·) else none

def digitValue (c : Char) : Nat :=
  if c.isDigit then c.toNat - 48
  else if 'a' ≤ c ∧ c ≤ 'z' then c.toNat - 87
  else c.toNat - 55

def isDigitOf (base : Nat) (c : Char) : Bool :=
  c.isAlphanum && decide (digitValue c < base)

def natural? (base : Nat) (cs : List Char) : Option Nat :=
  (ungroup? (isDigitOf base) cs).map (·.foldl (fun n c => n * base + digitValue c) 0)

/-- Only zero itself begins with a zero. -/
def plain? (cs : List Char) : Option Nat :=
  match cs with
  | '0' :: _ :: _ => none
  | _ => natural? 10 cs

def integer? : List Char → Option Int
  | '0' :: 'x' :: cs => (natural? 16 cs).map Int.ofNat
  | '0' :: 'o' :: cs => (natural? 8 cs).map Int.ofNat
  | '0' :: 'b' :: cs => (natural? 2 cs).map Int.ofNat
  | '+' :: cs => (plain? cs).map Int.ofNat
  | '-' :: cs => (plain? cs).map fun n => -(n : Int)
  | cs => (plain? cs).map Int.ofNat

def unsigned : List Char → List Char
  | '+' :: cs => cs
  | '-' :: cs => cs
  | cs => cs

/-- The power of ten that an exponent asks for, if anything follows the digits at all. -/
def exponent? : List Char → Option Int
  | [] => some 0
  | e :: cs =>
    if e = 'e' ∨ e = 'E' then
      (natural? 10 (unsigned cs)).map fun n => if cs.head? = some '-' then -(n : Int) else n
    else none

/-- The digits of a number with a fraction or an exponent, and the power of ten that the
last of them counts. -/
def decimal? (cs : List Char) : Option (List Char × Int) := do
  let isPart (c : Char) : Bool := c.isDigit || c == '_'
  let whole := cs.takeWhile isPart
  discard (plain? whole)
  let digits ← ungroup? Char.isDigit whole
  match cs.dropWhile isPart with
  | [] => none
  | '.' :: rest =>
    let places ← ungroup? Char.isDigit (rest.takeWhile isPart)
    return (digits ++ places, (← exponent? (rest.dropWhile isPart)) - (places.length : Int))
  | rest => return (digits, ← exponent? rest)

/-- Numbers from here on have no nearest floating point number but infinity. -/
def firstInfinite : Nat := (2 ^ 54 - 1) * 2 ^ 970

/-- A decimal number is too large for a floating point number.  The number of its digits
before the point settles all but one case without a power of ten. -/
def isInfinite (digits : List Char) (power : Int) : Bool :=
  let digits := digits.dropWhile (· == '0')
  let places := digits.length + power
  let n := Nat.ofDigitChars 10 digits 0
  !digits.isEmpty && (decide (309 < places) ||
    (decide (places = 309) && decide (firstInfinite * 10 ^ (-power).toNat ≤ n * 10 ^ power.toNat)))

/-- A number with a fraction or an exponent.  It may fall below the floating point
numbers but not rise above them. -/
def float? (cs : List Char) : Option Scalar :=
  let body := unsigned cs
  if body = "inf".toList ∨ body = "nan".toList then some float
  else
    match decimal? body with
    | none => none
    | some (digits, power) =>
      if cs.head? ≠ some '-' ∧ isInfinite digits power then none else some float

/-- The value of a word without quotes.  Integers have sixty-four bits and a sign. -/
def ofWord? (cs : List Char) : Option Scalar :=
  if cs = "true".toList then some (boolean true)
  else if cs = "false".toList then some (boolean false)
  else
    match integer? cs with
    | some n => if -2 ^ 63 ≤ n ∧ n < 2 ^ 63 then some (integer n) else none
    | none => float? cs

end Scalar
end Toml
end ImageUpload
