import ImageUpload.Number.Natural
import ImageUpload.Text.Blank
import ImageUpload.Time.Instant

/-!
Instants as text.  Writing uses universal time and as few groups of three decimals
as the nanoseconds need.  Reading is more liberal: a part may have a single digit
and stand behind blanks, the fraction may have any number of digits, of which nine
count, and the clock may be ahead of universal time or behind it.
-/

namespace ImageUpload
namespace Rfc3339

/-- Decimal digits, filled up with zeros on the left. -/
def padded (width n : Nat) : List Char :=
  let digits := Nat.toDigits 10 n
  List.replicate (width - digits.length) '0' ++ digits

/-- Years of four digits are plain and all others have a sign. -/
def yearText (year : Int) : List Char :=
  if 0 ≤ year ∧ year ≤ 9999 then padded 4 year.toNat
  else if 0 ≤ year then '+' :: padded 4 year.toNat
  else '-' :: padded 4 (-year).toNat

def fractionText (nanos : Nat) : List Char :=
  if nanos = 0 then []
  else if nanos % 1000000 = 0 then '.' :: padded 3 (nanos / 1000000)
  else if nanos % 1000 = 0 then '.' :: padded 6 (nanos / 1000)
  else '.' :: padded 9 nanos

def clockText (c : ClockTime) : List Char :=
  yearText c.date.year ++ '-' :: padded 2 c.date.month ++ '-' :: padded 2 c.date.day ++
    'T' :: padded 2 c.hour ++ ':' :: padded 2 c.minute ++ ':' :: padded 2 c.second ++
    fractionText c.nanos

/-- The text with the letter that stands for universal time. -/
def zulu (t : Instant) : String :=
  String.ofList (clockText (ClockTime.ofInstant t) ++ ['Z'])

/-- The text with a numeric offset from universal time. -/
def numeric (t : Instant) : String :=
  String.ofList (clockText (ClockTime.ofInstant t) ++ "+00:00".toList)

/-! ## Reading -/

/-- A number of one up to `width` digits. -/
def number? (width : Nat) (cs : List Char) : Option (Nat × List Char) :=
  let digits := (cs.takeWhile Char.isDigit).take width
  if digits.isEmpty then none
  else some (Nat.ofDigitChars 10 digits 0, cs.drop digits.length)

/-- A number of one or two digits behind any blanks. -/
def part? (cs : List Char) : Option (Nat × List Char) :=
  number? 2 (skipBlanks cs)

/-- A year has up to four digits, or a sign and any number of them. -/
def year? (cs : List Char) : Option (Int × List Char) :=
  match skipBlanks cs with
  | '-' :: rest => (number? rest.length rest).map fun (n, rest) => (-n, rest)
  | '+' :: rest => (number? rest.length rest).map fun (n, rest) => (n, rest)
  | cs => (number? 4 cs).map fun (n, rest) => (n, rest)

/-- What follows a character that blanks may precede. -/
def after? (c : Char) (cs : List Char) : Option (List Char) :=
  match skipBlanks cs with
  | d :: rest => if d = c then some rest else none
  | [] => none

/-- The digits of a fraction as nanoseconds, of which there may be none. -/
def fraction? : List Char → Option (Nat × List Char)
  | '.' :: rest =>
    let digits := rest.takeWhile Char.isDigit
    if digits.isEmpty then none
    else
      let nine := digits.take 9
      some (Nat.ofDigitChars 10 nine 0 * 10 ^ (9 - nine.length), rest.drop digits.length)
  | cs => some (0, cs)

def digit? (c : Char) : Option Nat :=
  if c.isDigit then some (c.toNat - 48) else none

/-- The hours and minutes of an offset, in seconds.  Colons and blanks may stand
between them. -/
def hoursMinutes? : List Char → Option (Int × List Char)
  | a :: b :: rest => do
    let hours := (← digit? a) * 10 + (← digit? b)
    match rest.dropWhile (fun c => c == ':' || isBlank c) with
    | c :: d :: rest =>
      let minutes := (← digit? c) * 10 + (← digit? d)
      if minutes < 60 ∧ hours < 24 then return (hours * 3600 + minutes * 60, rest) else none
    | _ => none
  | _ => none

def offset? : List Char → Option (Int × List Char)
  | 'Z' :: rest => some (0, rest)
  | 'z' :: rest => some (0, rest)
  | '+' :: rest => hoursMinutes? rest
  | '-' :: rest => (hoursMinutes? rest).map fun (n, rest) => (-n, rest)
  | '−' :: rest => (hoursMinutes? rest).map fun (n, rest) => (-n, rest)
  | u :: t :: c :: rest =>
    if [u, t, c].map Char.toUpper = ['U', 'T', 'C'] then some (0, rest) else none
  | _ => none

def separator? : List Char → Option (List Char)
  | 'T' :: rest => some rest
  | 't' :: rest => some rest
  | ' ' :: rest => some rest
  | _ => none

def ofList? (cs : List Char) : Option Instant := do
  let (year, cs) ← year? cs
  let (month, cs) ← part? (← after? '-' cs)
  let (day, cs) ← part? (← after? '-' cs)
  let cs ← separator? cs
  let (hour, cs) ← part? cs
  let (minute, cs) ← part? (← after? ':' cs)
  let (second, cs) ← part? (← after? ':' cs)
  let (nanos, cs) ← fraction? cs
  let (offset, cs) ← offset? (skipBlanks cs)
  let clock : ClockTime := ⟨⟨year, month, day⟩, hour, minute, second, nanos⟩
  if (skipBlanks cs).isEmpty then clock.toInstant? offset else none

def ofString? (s : String) : Option Instant :=
  ofList? s.toList

end Rfc3339
end ImageUpload
