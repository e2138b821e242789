import ImageUpload.Json.Token

/-!
The grammar of documents, as a machine over tokens with a stack of the arrays and
objects that are still open.  A document is read in one pass, and nesting costs
stack and no recursion.
-/

namespace ImageUpload
namespace Json

/-- An open array or object with what it holds so far, in reverse.  An object also
has the name whose value comes next. -/
inductive Frame where
  | array (items : List Value)
  | object (members : List (Option String × Value)) (name : Option String)

inductive Stage where
  | value (open_ : List Frame)
  | valueOrClose (open_ : List Frame)
  | name (members : List (Option String × Value)) (open_ : List Frame)
  | nameOrClose (open_ : List Frame)
  | colon (members : List (Option String × Value)) (name : Option String) (open_ : List Frame)
  | separator (inner : Frame) (open_ : List Frame)
  | complete (v : Value)

namespace Stage

/-- A value is complete.  It belongs to the innermost open frame. -/
def deliver (v : Value) : List Frame → Stage
  | [] => complete v
  | .array items :: rest => separator (.array (v :: items)) rest
  | .object members key :: rest => separator (.object ((key, v) :: members) key) rest

def begin : Token → List Frame → Option Stage
  | .scalar v, frames => some (deliver v frames)
  | .openArray, frames => some (valueOrClose frames)
  | .openObject, frames => some (nameOrClose frames)
  | _, _ => none

def step : Stage → Token → Option Stage
  | value frames, t => begin t frames
  | valueOrClose frames, t =>
    match t with
    | .closeArray => some (deliver (.array []) frames)
    | t => begin t (.array [] :: frames)
  | name members frames, t =>
    match t with
    | .scalar (.string s) => some (colon members s frames)
    | _ => none
  | nameOrClose frames, t =>
    match t with
    | .closeObject => some (deliver (.object []) frames)
    | .scalar (.string s) => some (colon [] s frames)
    | _ => none
  | colon members s frames, t =>
    match t with
    | .colon => some (value (.object members s :: frames))
    | _ => none
  | separator (.array items) frames, t =>
    match t with
    | .comma => some (value (.array items :: frames))
    | .closeArray => some (deliver (.array items.reverse) frames)
    | _ => none
  | separator (.object members _) frames, t =>
    match t with
    | .comma => some (name members frames)
    | .closeObject => some (deliver (.object members.reverse) frames)
    | _ => none
  | complete _, _ => none

def run (s : Stage) : List Token → Option Stage
  | [] => some s
  | t :: rest => (s.step t).bind (·.run rest)

end Stage

namespace Value

def ofTokens? (tokens : List Token) : Option Value :=
  match (Stage.value []).run tokens with
  | some (.complete v) => some v
  | _ => none

def ofSymbols? (text : List Symbol) : Option Value :=
  (Token.ofSymbols? text).bind ofTokens?

/-- The document a text holds, if it holds one and nothing after it. -/
def ofString? (text : String) : Option Value :=
  ofSymbols? (Symbol.ofString text)

def ofBytes? (bytes : ByteArray) : Option Value :=
  ofSymbols? (Symbol.ofBytes bytes)

end Value
end Json
end ImageUpload
