/-!
Bytes as text in sixty-four letters.  Three bytes make four letters, and a shorter
last group is filled up with the padding sign.  Reading accepts exactly what writing
produces: the padding is required and the bits that it leaves unused are zero.
-/

namespace ImageUpload
namespace Base64

def letter (n : Nat) : Char :=
  if n < 26 then Char.ofNat (n + 65)
  else if n < 52 then Char.ofNat (n + 71)
  else if n < 62 then Char.ofNat (n - 4)
  else if n = 62 then '+'
  else '/'

def value? (c : Char) : Option Nat :=
  if 'A' ≤ c ∧ c ≤ 'Z' then some (c.toNat - 65)
  else if 'a' ≤ c ∧ c ≤ 'z' then some (c.toNat - 71)
  else if '0' ≤ c ∧ c ≤ '9' then some (c.toNat + 4)
  else if c = '+' then some 62
  else if c = '/' then some 63
  else none

def encodeList : List UInt8 → List Char
  | [] => []
  | [a] =>
    let n := a.toNat * 16
    [letter (n / 64), letter (n % 64), '=', '=']
  | [a, b] =>
    let n := (a.toNat * 256 + b.toNat) * 4
    [letter (n / 4096), letter (n / 64 % 64), letter (n % 64), '=']
  | a :: b :: c :: rest =>
    let n := (a.toNat * 256 + b.toNat) * 256 + c.toNat
    letter (n / 262144) :: letter (n / 4096 % 64) :: letter (n / 64 % 64) :: letter (n % 64) ::
      encodeList rest

/-- The one byte that two letters write. -/
def one? (a b : Char) : Option (List UInt8) := do
  let n := (← value? a) * 64 + (← value? b)
  if n % 16 = 0 then return [(n / 16).toUInt8] else none

/-- The two bytes that three letters write. -/
def two? (a b c : Char) : Option (List UInt8) := do
  let n := ((← value? a) * 64 + (← value? b)) * 64 + (← value? c)
  if n % 4 = 0 then return [(n / 1024).toUInt8, (n / 4).toUInt8] else none

/-- The three bytes that four letters write. -/
def three? (a b c d : Char) : Option (List UInt8) := do
  let n := (((← value? a) * 64 + (← value? b)) * 64 + (← value? c)) * 64 + (← value? d)
  return [(n / 65536).toUInt8, (n / 256).toUInt8, n.toUInt8]

def decodeList? : List Char → Option (List UInt8)
  | [] => some []
  | [a, b, '=', '='] => one? a b
  | [a, b, c, '='] => two? a b c
  | a :: b :: c :: d :: rest =>
    match three? a b c d, decodeList? rest with
    | some group, some rest => some (group ++ rest)
    | _, _ => none
  | _ => none

def encode (b : ByteArray) : String :=
  String.ofList (encodeList b.data.toList)

def decode? (s : String) : Option ByteArray :=
  (decodeList? s.toList).map List.toByteArray

end Base64
end ImageUpload
