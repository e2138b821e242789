import ImageUpload.Number.Natural

namespace ImageUpload
namespace Json

/-- A document as far as its readers look at it.  A string literal may denote no
text, because it names half of a surrogate pair or holds bytes that encode no
character.  Such a literal is still part of a well formed document, so it is kept
as `none` and refused only where a text is asked for.  A number that is more than
a run of digits is kept as written. -/
inductive Value where
  | null
  | bool (b : Bool)
  | natural (n : Nat)
  | number (written : String)
  | string (s : Option String)
  | array (items : List Value)
  | object (members : List (Option String × Value))
  deriving Inhabited

namespace Value

def asWord? : Value → Option Nat
  | natural n => if n < 2 ^ 64 then some n else none
  | _ => none

def asString? : Value → Option String
  | string s => s
  | _ => none

def asArray? : Value → Option (List Value)
  | array items => some items
  | _ => none

end Value
end Json
end ImageUpload
