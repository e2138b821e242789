import ImageUpload.Number.Natural

/-!
Paths as they are written: the names between the slashes from the root on.  A name that
is empty or a single dot stays in place, and two dots go back, but only where a disk is
at hand to follow the path on.
-/

namespace ImageUpload

abbrev Path := List String

namespace Path

/-- The names between the slashes of a text, behind the letters of the first name that
are known already. -/
def namesFrom (known : List Char) : List Char → List String
  | [] => [String.ofList known.reverse]
  | c :: rest =>
    if c = '/' then String.ofList known.reverse :: namesFrom [] rest
    else namesFrom (c :: known) rest

def names (text : String) : List String :=
  namesFrom [] text.toList

/-- The path of a text from a directory on.  A leading slash goes back to the root. -/
def join (p : Path) (text : String) : Path :=
  if text.toList.head? = some '/' then (names text).drop 1 else p ++ names text

/-- A name that leads nowhere else. -/
def stays (name : String) : Bool :=
  decide (name = "" ∨ name = ".")

/-- A path without the names at its end that stay in place. -/
def trim (p : Path) : Path :=
  (p.reverse.dropWhile stays).reverse

/-- The path to the directory a path is seen in. -/
def parent (p : Path) : Path :=
  trim (trim p).dropLast

/-- The name of what a path leads to, if the path spells it. -/
def lastName? (p : Path) : Option String :=
  match (trim p).getLast? with
  | some name => if name = ".." then none else some name
  | none => none

/-- The path with more letters after its last name. -/
def appendToName (p : Path) (letters : String) : Path :=
  p.dropLast ++ (p.getLast?.map (· ++ letters)).toList

def length (p : Path) : Nat :=
  (p.map fun name => name.utf8ByteSize + 1).sum

end Path
end ImageUpload
