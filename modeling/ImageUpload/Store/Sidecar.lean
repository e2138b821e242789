import ImageUpload.Metadata.Map
import ImageUpload.RangeSet.Text

namespace ImageUpload

open Json (Value)

/-- What is known of an object beside its bytes.  It is kept as a document in a file of
its own. -/
structure Sidecar where
  size : Nat
  metadata : MetadataMap
  contentHash : Option String
  written : RangeSet
  deriving DecidableEq

namespace Sidecar

def fresh (size : Nat) (metadata : MetadataMap) : Sidecar :=
  ⟨size, metadata, none, .empty⟩

def toValue (s : Sidecar) : Value :=
  .object [
    (some "size", .natural s.size),
    (some "metadata", .object (s.metadata.entries.map fun (name, text) =>
      (some name, .string (some text)))),
    (some "content_hash", match s.contentHash with
      | none => .null
      | some hash => .string (some hash)),
    (some "written", s.written.toValue)]

def text (s : Sidecar) : String :=
  s.toValue.pretty

/-- A member of a metadata object: a text under a name. -/
def entry? : Option String × Value → Option (String × String)
  | (some name, .string (some text)) => some (name, text)
  | _ => none

def metadata? : Option Value → Option MetadataMap
  | none => some .empty
  | some (.object members) => (members.mapM entry?).map MetadataMap.ofList
  | some _ => none

def contentHash? : Option Value → Option (Option String)
  | none => some none
  | some .null => some none
  | some (.string (some hash)) => some (some hash)
  | some _ => none

def written? : Option Value → Option RangeSet
  | none => some .empty
  | some v => RangeSet.ofValue? v

/-- All fields but the size may be missing. -/
def ofValue? (v : Value) : Option Sidecar :=
  match v.fields? ["size", "metadata", "content_hash", "written"] with
  | some [some size, metadata, contentHash, written] => do
    return ⟨← size.asWord?, ← metadata? metadata, ← contentHash? contentHash, ← written? written⟩
  | _ => none

def ofBytes? (bytes : ByteArray) : Option Sidecar :=
  (Value.ofBytes? bytes).bind ofValue?

end Sidecar
end ImageUpload
