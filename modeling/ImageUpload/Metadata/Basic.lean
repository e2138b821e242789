import ImageUpload.Digest.Sha256
import ImageUpload.Time.Rfc3339

namespace ImageUpload

structure ImageMetadata where
  fileName : String
  size : Nat
  lastModified : Instant
  /-- The digest of the whole image. -/
  contentHash : String
  size_lt : size < 2 ^ 64
  deriving DecidableEq

inductive MetadataMismatch where
  | size (remote localSize : Nat)
  | contentHash (remote localHash : String)
  | lastModified (remote localTime : Instant)
  deriving DecidableEq

namespace MetadataMismatch

def message : MetadataMismatch → String
  | size remote here => s!"size differs (remote {remote}, local {here})"
  | contentHash remote here => s!"content hash differs (remote {remote}, local {here})"
  | lastModified remote here =>
    "last modified differs (remote " ++ Rfc3339.numeric remote ++ ", local " ++
      Rfc3339.numeric here ++ ")"

end MetadataMismatch

namespace ImageMetadata

/-- The identity of an image file.  There is none for a file that is too long. -/
def ofFile? (fileName : String) (bytes : ByteArray) (modified : Instant) : Option ImageMetadata :=
  if h : bytes.size < 2 ^ 64 then some ⟨fileName, bytes.size, modified, Sha256.text bytes, h⟩
  else none

/-- Every difference between what the destination records and the local image.  The
file name may differ. -/
def compare (remote here : ImageMetadata) : List MetadataMismatch :=
  (if remote.size = here.size then [] else [.size remote.size here.size]) ++
  (if remote.contentHash = here.contentHash then []
    else [.contentHash remote.contentHash here.contentHash]) ++
  (if remote.lastModified = here.lastModified then []
    else [.lastModified remote.lastModified here.lastModified])

end ImageMetadata
end ImageUpload
