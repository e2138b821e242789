/-!
Quoted texts of a settings file.  A basic text has escapes and a literal text has none,
and both exist on one line and on several.  A writer takes the plainest form in which a
text needs no escape, as far as there is one.
-/

namespace ImageUpload
namespace Toml
namespace Quoted

/-- A control character other than the tabulator. -/
def isControl (c : Char) : Bool :=
  (decide (c.toNat < 32) && c != '\t') || c.toNat == 127

/-! ## Reading -/

def escape? : Char → Option Char
  | 'b' => some '\x08'
  | 't' => some '\t'
  | 'n' => some '\n'
  | 'f' => some '\x0c'
  | 'r' => some '\r'
  | '"' => some '"'
  | '\\' => some '\\'
  | _ => none

def hexValue? (c : Char) : Option Nat :=
  if c.isDigit then some (c.toNat - 48)
  else if 'a' ≤ c ∧ c ≤ 'f' then some (c.toNat - 87)
  else if 'A' ≤ c ∧ c ≤ 'F' then some (c.toNat - 55)
  else none

/-- The character whose number is written in hexadecimal digits. -/
def scalar? (digits : List Char) : Option Char := do
  let n := (← digits.mapM hexValue?).foldl (fun n d => n * 16 + d) 0
  if n < 0xD800 ∨ (0xE000 ≤ n ∧ n < 0x110000) then return Char.ofNat n else none

/-- Put a character before a text that is being read. -/
def push (c : Option Char) (more : Option (List Char × List Char)) :
    Option (List Char × List Char) :=
  match c, more with
  | some c, some (cs, rest) => some (c :: cs, rest)
  | _, _ => none

/-- A basic text up to its closing quote. -/
def basic? : List Char → Option (List Char × List Char)
  | [] => none
  | '"' :: rest => some ([], rest)
  | '\\' :: 'u' :: a :: b :: c :: d :: rest => push (scalar? [a, b, c, d]) (basic? rest)
  | '\\' :: 'U' :: a :: b :: c :: d :: e :: f :: g :: h :: rest =>
    push (scalar? [a, b, c, d, e, f, g, h]) (basic? rest)
  | '\\' :: e :: rest => push (escape? e) (basic? rest)
  | c :: rest => if isControl c then none else push (some c) (basic? rest)

def literal? : List Char → Option (List Char × List Char)
  | [] => none
  | '\'' :: rest => some ([], rest)
  | c :: rest => if isControl c then none else push (some c) (literal? rest)

/-- A line ends here, perhaps behind blanks. -/
def endsLine : List Char → Bool
  | ' ' :: rest => endsLine rest
  | '\t' :: rest => endsLine rest
  | '\n' :: _ => true
  | '\r' :: '\n' :: _ => true
  | _ => false

/-- A basic text on several lines.  Two quotes may stand right before the closing three.
Behind a backslash at the end of a line, the line break and all blanks are skipped. -/
def multiBasic? (skipping : Bool) : List Char → Option (List Char × List Char)
  | [] => none
  | '"' :: '"' :: '"' :: '"' :: '"' :: rest => some (['"', '"'], rest)
  | '"' :: '"' :: '"' :: '"' :: rest => some (['"'], rest)
  | '"' :: '"' :: '"' :: rest => some ([], rest)
  | '\\' :: 'u' :: a :: b :: c :: d :: rest =>
    push (scalar? [a, b, c, d]) (multiBasic? false rest)
  | '\\' :: 'U' :: a :: b :: c :: d :: e :: f :: g :: h :: rest =>
    push (scalar? [a, b, c, d, e, f, g, h]) (multiBasic? false rest)
  | '\\' :: e :: rest =>
    if endsLine (e :: rest) then multiBasic? true (e :: rest)
    else push (escape? e) (multiBasic? false rest)
  | '\r' :: '\n' :: rest =>
    if skipping then multiBasic? true rest else push (some '\n') (multiBasic? false rest)
  | c :: rest =>
    if skipping && (c == ' ' || c == '\t' || c == '\n') then multiBasic? true rest
    else if isControl c && c != '\n' then none
    else push (some c) (multiBasic? false rest)

def multiLiteral? : List Char → Option (List Char × List Char)
  | [] => none
  | '\'' :: '\'' :: '\'' :: '\'' :: '\'' :: rest => some (['\'', '\''], rest)
  | '\'' :: '\'' :: '\'' :: '\'' :: rest => some (['\''], rest)
  | '\'' :: '\'' :: '\'' :: rest => some ([], rest)
  | '\r' :: '\n' :: rest => push (some '\n') (multiLiteral? rest)
  | c :: rest =>
    if isControl c && c != '\n' then none else push (some c) (multiLiteral? rest)

/-- A line break right behind three opening quotes does not count. -/
def skipBreak : List Char → List Char
  | '\n' :: rest => rest
  | '\r' :: '\n' :: rest => rest
  | cs => cs

/-- A text on one line, from its opening quote on. -/
def line? : List Char → Option (List Char × List Char)
  | '"' :: rest => basic? rest
  | '\'' :: rest => literal? rest
  | _ => none

/-- A text from its opening quotes on. -/
def text? : List Char → Option (List Char × List Char)
  | '"' :: '"' :: '"' :: rest => multiBasic? false (skipBreak rest)
  | '\'' :: '\'' :: '\'' :: rest => multiLiteral? (skipBreak rest)
  | cs => line? cs

/-! ## Writing -/

inductive Style where
  | basic
  | literal
  | multiBasic
  | multiLiteral
  deriving DecidableEq

/-- The length of the longest run of a character, of which `current` are behind. -/
def longestRun (c : Char) (current : Nat) : List Char → Nat
  | [] => current
  | d :: rest => if d = c then longestRun c (current + 1) rest else max current (longestRun c 0 rest)

def styleOf (s : List Char) : Style :=
  let controls := s.any fun c => isControl c && c != '\n'
  let escapes := controls || s.contains '\\'
  let newline := s.contains '\n'
  if !escapes && longestRun '"' 0 s == 0 && !newline then .basic
  else if !controls && longestRun '\'' 0 s == 0 && !newline then .literal
  else if !escapes && decide (longestRun '"' 0 s ≤ 2) then .multiBasic
  else if !controls && decide (longestRun '\'' 0 s ≤ 2) then .multiLiteral
  else if newline then .multiBasic
  else .basic

def hexDigit (n : Nat) : Char :=
  (Nat.digitChar n).toUpper

/-- How a character is written in a basic text, unless it is a quote or stands for
itself. -/
def escaped? (c : Char) : Option (List Char) :=
  if c = '\x08' then some ['\\', 'b']
  else if c = '\t' then some ['\\', 't']
  else if c = '\n' then some ['\\', 'n']
  else if c = '\x0c' then some ['\\', 'f']
  else if c = '\r' then some ['\\', 'r']
  else if c = '\\' then some ['\\', '\\']
  else if isControl c then
    some ['\\', 'u', '0', '0', hexDigit (c.toNat / 16), hexDigit (c.toNat % 16)]
  else none

/-- The text between the quotes.  Runs of up to `quotes` quotes stay as they are. -/
def encode (lines : Bool) (quotes run : Nat) : List Char → List Char
  | [] => []
  | c :: rest =>
    if c = '"' then
      if run < quotes then c :: encode lines quotes (run + 1) rest
      else '\\' :: '"' :: encode lines quotes 0 rest
    else if lines && c == '\n' then c :: encode lines quotes 0 rest
    else
      match escaped? c with
      | some cs => cs ++ encode lines quotes 0 rest
      | none => c :: encode lines quotes 0 rest

/-- A text over several lines begins on a line of its own. -/
def opening (quotes : String) (s : List Char) : List Char :=
  quotes.toList ++ if s.contains '\n' then ['\n'] else []

def write (text : String) : String :=
  let s := text.toList
  String.ofList (match styleOf s with
    | .basic => '"' :: encode false 0 0 s ++ ['"']
    | .literal => '\'' :: s ++ ['\'']
    | .multiBasic => opening "\"\"\"" s ++ encode true 2 0 s ++ "\"\"\"".toList
    | .multiLiteral => opening "'''" s ++ s ++ "'''".toList)

end Quoted
end Toml
end ImageUpload
