import ImageUpload.Json.Value

namespace ImageUpload
namespace Json

/-!
Records.  A record may be written as an object, in any order and with members of
other names beside its own, or as the bare array of its fields in their order.
A field that is missing comes out as `none`, and the reader of the record decides
whether it may be.
-/

/-- The values under `name`, or nothing if it occurs twice. -/
def member? (members : List (Option String × Value)) (name : String) : Option (Option Value) :=
  match members.filter (fun m => m.1 == some name) with
  | [] => some none
  | [m] => some (some m.2)
  | _ => none

/-- The fields of a record by their names.  A member whose name is no text spoils
the whole record. -/
def Value.fields? (names : List String) : Value → Option (List (Option Value))
  | .object members =>
    if members.all (·.1.isSome) then names.mapM (member? members) else none
  | .array items =>
    if items.length ≤ names.length then
      some (items.map some ++ List.replicate (names.length - items.length) none)
    else none
  | _ => none

end Json
end ImageUpload
