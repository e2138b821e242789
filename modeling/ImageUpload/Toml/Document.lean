import ImageUpload.Toml.Quoted
import ImageUpload.Toml.Scalar

/-!
Settings files: lines that give a value to a key or open a table.  Keys are paths, and
no path may have two meanings.
-/

namespace ImageUpload
namespace Toml

inductive TableOrigin where
  /-- A line of its own opened it. -/
  | opened
  /-- A line opened a table below it. -/
  | passed
  /-- A key of several names leads through it. -/
  | spelled
  deriving DecidableEq

inductive Item where
  | value (v : Scalar)
  | table (origin : TableOrigin)
  deriving DecidableEq

/-- Values and tables, each once under its path from the root. -/
structure Document where
  items : List (List String × Item)

namespace Document

def empty : Document :=
  ⟨[]⟩

def item? (d : Document) (path : List String) : Option Item :=
  d.items.lookup path

def set (d : Document) (path : List String) (i : Item) : Document :=
  ⟨(path, i) :: d.items.filter fun e => decide (e.1 ≠ path)⟩

def get? (d : Document) (key : String) : Option Scalar :=
  match d.item? [key] with
  | some (.value v) => some v
  | _ => none

def hasTable (d : Document) (key : String) : Bool :=
  match d.item? [key] with
  | some (.table _) => true
  | _ => false

/-- Go down through tables, making those that are missing.  The names of a key do not
lead into a table that was opened. -/
def pass (origin : TableOrigin) (d : Document) (table : List String) :
    (names : List String) → Option Document
  | [] => some d
  | name :: rest =>
    let path := table ++ [name]
    match d.item? path with
    | none => (d.set path (.table origin)).pass origin path rest
    | some (.value _) => none
    | some (.table old) =>
      if origin = .spelled ∧ old = .opened then none else d.pass origin path rest

/-- Open a table.  It may exist so far only because tables below it were opened. -/
def openTable (d : Document) (path : List String) : Option Document :=
  match d.pass .passed [] path.dropLast with
  | none => none
  | some d =>
    match d.item? path with
    | none => some (d.set path (.table .opened))
    | some (.table .passed) => some (d.set path (.table .opened))
    | _ => none

/-- Give a value to a key in a table.  A key of several names ends in a table that only
such keys have made. -/
def give (d : Document) (table key : List String) (v : Scalar) : Option Document :=
  match d.pass .spelled table key.dropLast with
  | none => none
  | some d =>
    let inner := table ++ key.dropLast
    if (1 < key.length ∧ d.item? inner ≠ some (.table .spelled)) ∨
        (d.item? (table ++ key)).isSome then none
    else some (d.set (table ++ key) (.value v))

/-! ## Reading -/

def skipBlanks (cs : List Char) : List Char :=
  cs.dropWhile (fun c => c == ' ' || c == '\t')

def isBare (c : Char) : Bool :=
  c.isAlphanum || c == '_' || c == '-'

/-- A key without dots. -/
def name? (cs : List Char) : Option (String × List Char) :=
  match cs with
  | '"' :: _ => (Quoted.line? cs).map fun (s, rest) => (String.ofList s, rest)
  | '\'' :: _ => (Quoted.line? cs).map fun (s, rest) => (String.ofList s, rest)
  | _ =>
    let word := cs.takeWhile isBare
    if word.isEmpty then none else some (String.ofList word, cs.drop word.length)

def longestKey : Nat := 79

/-- A key of at most so many names, with dots between them. -/
def key? : (names : Nat) → List Char → Option (List String × List Char)
  | 0, _ => none
  | names + 1, cs =>
    match name? (skipBlanks cs) with
    | none => none
    | some (name, rest) =>
      match skipBlanks rest with
      | '.' :: rest => (key? names rest).map fun (more, rest) => (name :: more, rest)
      | rest => some ([name], rest)

def value? (cs : List Char) : Option (Scalar × List Char) :=
  match Quoted.text? cs with
  | some (s, rest) => some (.text (String.ofList s), rest)
  | none =>
    let word := cs.takeWhile fun c => isBare c || c == '+' || c == '.'
    (Scalar.ofWord? word).map fun v => (v, cs.drop word.length)

/-- What follows the end of a line, which only a comment may precede. -/
def nextLine? (cs : List Char) : Option (List Char) :=
  let rest := match skipBlanks cs with
    | '#' :: rest => rest.dropWhile fun c => !Quoted.isControl c
    | rest => rest
  match rest with
  | [] => some []
  | '\n' :: rest => some rest
  | '\r' :: '\n' :: rest => some rest
  | _ => none

/-- Read at most so many lines, with the path of the open table. -/
def ofLines? : (lines : Nat) → (table : List String) → Document → List Char → Option Document
  | 0, _, _, _ => none
  | lines + 1, table, d, cs =>
    match skipBlanks cs with
    | [] => some d
    | '[' :: rest =>
      match key? longestKey rest with
      | some (key, ']' :: rest) =>
        match d.openTable key, nextLine? rest with
        | some d, some rest => ofLines? lines key d rest
        | _, _ => none
      | _ => none
    | c :: rest =>
      if c = '#' ∨ c = '\n' ∨ c = '\r' then
        (nextLine? (c :: rest)).bind (ofLines? lines table d)
      else
        match key? longestKey (c :: rest) with
        | some (key, '=' :: rest) =>
          match value? (skipBlanks rest) with
          | some (v, rest) =>
            match d.give table key v, nextLine? rest with
            | some d, some rest => ofLines? lines table d rest
            | _, _ => none
          | none => none
        | _ => none

/-- The document that a text holds.  A byte order mark may come first. -/
def ofString? (text : String) : Option Document :=
  let cs := match text.toList with
    | '\uFEFF' :: rest => rest
    | cs => cs
  ofLines? (cs.length + 1) [] empty cs

end Document
end Toml
end ImageUpload
