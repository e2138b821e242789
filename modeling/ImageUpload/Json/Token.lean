import ImageUpload.Json.Quoted
import ImageUpload.Json.Value

/-!
Tokens.  The scanner is a machine that takes one symbol at a time: a number or a
word ends where its run of symbols does, and a string literal at the first quote
that no backslash precedes.
-/

namespace ImageUpload
namespace Json

inductive Token where
  | openObject
  | closeObject
  | openArray
  | closeArray
  | comma
  | colon
  | scalar (v : Value)

namespace Token

def isBlank (c : Char) : Bool :=
  c == ' ' || c == '\n' || c == '\t' || c == '\r'

def punctuation? : Char → Option Token
  | '\x7b' => some openObject
  | '\x7d' => some closeObject
  | '[' => some openArray
  | ']' => some closeArray
  | ',' => some comma
  | ':' => some colon
  | _ => none

def isNumeral (c : Char) : Bool :=
  c.isDigit || c == '-' || c == '+' || c == '.' || c == 'e' || c == 'E'

/-- What follows one or more digits, if `cs` begins with one. -/
def afterDigits? (cs : List Char) : Option (List Char) :=
  if cs.head?.any Char.isDigit then some (cs.dropWhile Char.isDigit) else none

/-- What follows an integer part, which has no leading zero. -/
def afterInteger? : List Char → Option (List Char)
  | '0' :: rest => some rest
  | cs => afterDigits? cs

def afterFraction? : List Char → Option (List Char)
  | '.' :: rest => afterDigits? rest
  | cs => some cs

def afterExponent? (cs : List Char) : Option (List Char) :=
  let unsigned : List Char → List Char
    | '+' :: rest => rest
    | '-' :: rest => rest
    | rest => rest
  match cs with
  | 'e' :: rest => afterDigits? (unsigned rest)
  | 'E' :: rest => afterDigits? (unsigned rest)
  | _ => some cs

def number? (cs : List Char) : Option Value :=
  if afterInteger? cs = some [] then some (.natural (Nat.ofDigitChars 10 cs 0))
  else
    let unsigned := match cs with
      | '-' :: rest => rest
      | _ => cs
    if ((afterInteger? unsigned).bind afterFraction?).bind afterExponent? = some [] then
      some (.number (String.ofList cs))
    else none

def word? (cs : List Char) : Option Value :=
  if cs = "null".toList then some .null
  else if cs = "true".toList then some (.bool true)
  else if cs = "false".toList then some (.bool false)
  else none

/-- Where the scanner stands.  Runs are kept in reverse. -/
inductive Mode where
  | between
  | inNumber (run : List Char)
  | inWord (run : List Char)
  | inString (raw : List Symbol)
  | afterBackslash (raw : List Symbol)

def start : Symbol → Option (List Token × Mode)
  | none => none
  | some c =>
    if isBlank c then some ([], .between)
    else if c = '"' then some ([], .inString [])
    else if c.isDigit || c == '-' then some ([], .inNumber [c])
    else if c.isLower then some ([], .inWord [c])
    else (punctuation? c).map (fun t => ([t], .between))

/-- Finish a run with its value and take the symbol after it. -/
def closeRun (v : Option Value) (s : Symbol) : Option (List Token × Mode) :=
  match v, start s with
  | some v, some (tokens, mode) => some (scalar v :: tokens, mode)
  | _, _ => none

def step : Mode → Symbol → Option (List Token × Mode)
  | .between, s => start s
  | .inNumber run, s =>
    match s with
    | some c => if isNumeral c then some ([], .inNumber (c :: run)) else closeRun (number? run.reverse) s
    | none => none
  | .inWord run, s =>
    match s with
    | some c => if c.isLower then some ([], .inWord (c :: run)) else closeRun (word? run.reverse) s
    | none => none
  | .inString raw, s =>
    if s = some '"' then
      let raw := raw.reverse
      if Quoted.wellFormed raw then some ([scalar (.string (Quoted.text? raw))], .between) else none
    else if s = some '\\' then some ([], .afterBackslash (s :: raw))
    else some ([], .inString (s :: raw))
  | .afterBackslash raw, s => some ([], .inString (s :: raw))

def finish : Mode → Option (List Token)
  | .between => some []
  | .inNumber run => (number? run.reverse).map (fun v => [scalar v])
  | .inWord run => (word? run.reverse).map (fun v => [scalar v])
  | .inString _ => none
  | .afterBackslash _ => none

/-- Scan the rest of a text behind the tokens found so far, kept in reverse. -/
def scan (found : List Token) (mode : Mode) : List Symbol → Option (List Token)
  | [] => (finish mode).map (fun last => found.reverse ++ last)
  | s :: rest =>
    match step mode s with
    | some (tokens, mode) => scan (tokens.reverse ++ found) mode rest
    | none => none

def ofSymbols? (text : List Symbol) : Option (List Token) :=
  scan [] .between text

end Token
end Json
end ImageUpload
