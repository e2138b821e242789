import ImageUpload.Json.Number
import ImageUpload.Json.Value
import ImageUpload.Number.FixedPlaces

/-!
A document that is kept whole and not read for certain fields.  Then every text in it
must denote one, every number must be a word or a finite floating point number, and
arrays and objects may lie in each other only so deep.  Of members with one name the
last counts.
-/

namespace ImageUpload
namespace Json

/-- A finite floating point number written with all its decimals, and at least one. -/
def decimalText (x : Float) : String :=
  let cs := (fixedPlaces 1074 x).toList.reverse.dropWhile (· == '0')
  String.ofList ((if cs.head? = some '.' then '0' :: cs else cs).reverse)

/-- A whole number below zero that fits into a word of sixty-four bits with a sign. -/
def isNegativeWord (written : String) : Bool :=
  match written.toList with
  | '-' :: digits =>
    let n := Nat.ofDigitChars 10 digits 0
    digits.all Char.isDigit && decide (0 < n ∧ n ≤ 2 ^ 63)
  | _ => false

namespace Value

/-- Members by their names, of each name the last. -/
def lastMembers (members : List (String × Value)) : List (String × Value) :=
  members.foldl (fun kept m => kept.filter (fun k => decide (k.1 ≠ m.1)) ++ [m]) []

def plainNumber? (written : String) : Option Value :=
  (Number.float? written).map fun x => number (decimalText x)

/-- How deep arrays and objects may lie in each other. -/
def plainDepth : Nat := 127

def plainTo? : (levels : Nat) → Value → Option Value
  | _, null => some null
  | _, bool b => some (bool b)
  | _, natural n => if n < 2 ^ 64 then some (natural n) else plainNumber? (toString n)
  | _, number written =>
    if isNegativeWord written then some (number written) else plainNumber? written
  | _, string s => s.map fun s => string (some s)
  | 0, array _ => none
  | 0, object _ => none
  | levels + 1, array items => (items.mapM (plainTo? levels)).map array
  | levels + 1, object members => do
    let named ← members.mapM fun (name, v) => do return (← name, ← plainTo? levels v)
    return object ((lastMembers named).map fun (name, v) => (some name, v))

def plain? (v : Value) : Option Value :=
  v.plainTo? plainDepth

end Value
end Json
end ImageUpload
