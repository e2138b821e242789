import ImageUpload.Json.Symbol

/-!
String literals.  `encode` writes the text between the quotes and `decode` reads
it.  `wellFormed` is what the grammar asks of a literal, whether or not it denotes
a text.
-/

namespace ImageUpload
namespace Json
namespace Quoted

def hexDigit (n : Nat) : Char :=
  Nat.digitChar n

def hexValue? (c : Char) : Option Nat :=
  if c.isDigit then some (c.toNat - 48)
  else if 'a' ≤ c ∧ c ≤ 'f' then some (c.toNat - 87)
  else if 'A' ≤ c ∧ c ≤ 'F' then some (c.toNat - 55)
  else none

/-- The code unit that four hexadecimal digits name. -/
def unit? (a b c d : Char) : Option Nat := do
  let a ← hexValue? a
  let b ← hexValue? b
  let c ← hexValue? c
  let d ← hexValue? d
  return ((a * 16 + b) * 16 + c) * 16 + d

/-- The character behind a one letter escape. -/
def escape? : Char → Option Char
  | '"' => some '"'
  | '\\' => some '\\'
  | '/' => some '/'
  | 'b' => some '\x08'
  | 'f' => some '\x0c'
  | 'n' => some '\n'
  | 'r' => some '\r'
  | 't' => some '\t'
  | _ => none

/-- Only the quote, the backslash and the control characters below the blank are
escaped. -/
def encodeChar (c : Char) : List Char :=
  if c = '"' then ['\\', '"']
  else if c = '\\' then ['\\', '\\']
  else if c = '\x08' then ['\\', 'b']
  else if c = '\x0c' then ['\\', 'f']
  else if c = '\n' then ['\\', 'n']
  else if c = '\r' then ['\\', 'r']
  else if c = '\t' then ['\\', 't']
  else if c.toNat < 32 then ['\\', 'u', '0', '0', hexDigit (c.toNat / 16), hexDigit (c.toNat % 16)]
  else [c]

def encode (s : List Char) : List Char :=
  s.flatMap encodeChar

/-- The scalar value that a pair of surrogates names. -/
def pair? (high low : Nat) : Option Char :=
  if 0xD800 ≤ high ∧ high < 0xDC00 ∧ 0xDC00 ≤ low ∧ low < 0xE000 then
    some (Char.ofNat (0x10000 + (high - 0xD800) * 0x400 + (low - 0xDC00)))
  else none

def single? (unit : Nat) : Option Char :=
  if 0xD800 ≤ unit ∧ unit < 0xE000 then none else some (Char.ofNat unit)

/-- The text of a well formed literal.  A surrogate that is not half of a pair
denotes nothing. -/
def decode : List Char → Option (List Char)
  | [] => some []
  | '\\' :: 'u' :: a :: b :: c :: d :: rest =>
    match unit? a b c d with
    | none => none
    | some unit =>
      match single? unit with
      | some ch => (decode rest).map (ch :: ·)
      | none =>
        match rest with
        | '\\' :: 'u' :: a' :: b' :: c' :: d' :: rest' =>
          match (unit? a' b' c' d').bind (pair? unit) with
          | some ch => (decode rest').map (ch :: ·)
          | none => none
        | _ => none
  | '\\' :: e :: rest =>
    match escape? e with
    | some ch => (decode rest).map (ch :: ·)
    | none => none
  | '\\' :: [] => none
  | ch :: rest => if ch.toNat < 32 then none else (decode rest).map (ch :: ·)

/-- Each backslash begins an escape and no control character stands unescaped. -/
def wellFormed : List Symbol → Bool
  | [] => true
  | some '\\' :: some 'u' :: some a :: some b :: some c :: some d :: rest =>
    (unit? a b c d).isSome && wellFormed rest
  | some '\\' :: some e :: rest => (escape? e).isSome && wellFormed rest
  | some '\\' :: _ => false
  | some ch :: rest => decide (32 ≤ ch.toNat) && wellFormed rest
  | none :: rest => wellFormed rest

def text? (raw : List Symbol) : Option String :=
  ((raw.mapM id).bind decode).map String.ofList

end Quoted
end Json
end ImageUpload
