import ImageUpload.Disk.FileTree
import ImageUpload.Range.Text

namespace ImageUpload

inductive StorageError where
  | io (reason : String)
  | file (fault : FileFault)
  /-- A stored document that cannot be read. -/
  | json (reason : String)
  | notFound
  | rejected (reason : String)
  | unaligned (range : ByteRange) (page : Nat)
  | outOfBounds (range : ByteRange) (size : Nat)
  | invalidMetadata (reason : String)
  deriving DecidableEq

namespace StorageError

/-- A document that is not JSON, or not of the form it should have. -/
def malformed : StorageError :=
  json "not a document of the expected form"

def message : StorageError → String
  | io reason => s!"I/O error: {reason}"
  | file fault => "I/O error: " ++ fault.reason
  | json reason => s!"JSON error: {reason}"
  | notFound => "object not found"
  | rejected reason => s!"request rejected: {reason}"
  | unaligned range page => "write " ++ range.text ++ s!" is not aligned to {page} byte pages"
  | outOfBounds range size => "write " ++ range.text ++ s!" exceeds object size {size}"
  | invalidMetadata reason => s!"invalid object metadata: {reason}"

/-- The same write may succeed if it is sent again. -/
def isRetryable : StorageError → Bool
  | io _ => true
  | file _ => true
  | rejected _ => true
  | _ => false

end StorageError
end ImageUpload
