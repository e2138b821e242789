import ImageUpload.Bytes.Base64
import ImageUpload.Json.Reader
import ImageUpload.Json.Record
import ImageUpload.Json.Writer
import ImageUpload.Metadata.Basic
import ImageUpload.Metadata.Map

/-!
The identity of an image as one entry in the metadata of the destination object: a
document, in letters that survive where arbitrary text may not.
-/

namespace ImageUpload

open Json (Value)

inductive EntryFault where
  | letters
  | document
  deriving DecidableEq

namespace ImageMetadata

def key : String := "pagesync_metadata"

def toValue (m : ImageMetadata) : Value :=
  .object [
    (some "file_name", .string (some m.fileName)),
    (some "size", .natural m.size),
    (some "last_modified", .string (some (Rfc3339.zulu m.lastModified))),
    (some "content_hash", .string (some m.contentHash))]

def ofValue? (v : Value) : Option ImageMetadata :=
  match v.fields? ["file_name", "size", "last_modified", "content_hash"] with
  | some [some fileName, some (.natural size), some lastModified, some contentHash] =>
    match fileName.asString?, lastModified.asString?.bind Rfc3339.ofString?, contentHash.asString? with
    | some fileName, some lastModified, some contentHash =>
      if h : size < 2 ^ 64 then some ⟨fileName, size, lastModified, contentHash, h⟩ else none
    | _, _, _ => none
  | _ => none

/-- The document behind the letters. -/
def json (m : ImageMetadata) : String :=
  m.toValue.compact

def toEntries (m : ImageMetadata) : MetadataMap :=
  MetadataMap.empty.insert key (Base64.encode m.json.toUTF8)

/-- The identity that the metadata of an object records, if it records one. -/
def ofEntries (entries : MetadataMap) : Except EntryFault (Option ImageMetadata) :=
  match entries.get? key with
  | none => .ok none
  | some letters =>
    match Base64.decode? letters with
    | none => .error .letters
    | some bytes =>
      match (Value.ofBytes? bytes).bind ofValue? with
      | none => .error .document
      | some m => .ok (some m)

end ImageMetadata
end ImageUpload
