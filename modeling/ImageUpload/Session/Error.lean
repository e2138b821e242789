import ImageUpload.Metadata.Basic
import ImageUpload.Store.Error
import ImageUpload.TransferError

namespace ImageUpload

inductive UploadError where
  | sourceRead (e : TransferError)
  | transfer (e : TransferError)
  | storage (e : StorageError)
  | mismatch (differences : List MetadataMismatch)
  | alreadyUploaded
  | missingMetadata
  /-- The ranges that failed, by their names. -/
  | incomplete (failed : List String)
  /-- A part of the session panicked. -/
  | panicked
  deriving DecidableEq

namespace UploadError

/-- Errors in reading the source are apart from all others. -/
def ofTransfer (e : TransferError) : UploadError :=
  match e with
  | .io _ => sourceRead e
  | .sourceRead _ _ => sourceRead e
  | _ => transfer e

def message : UploadError → String
  | sourceRead e => "source read failed: " ++ e.message
  | transfer e => "transfer error: " ++ e.message
  | storage e => "storage error: " ++ e.message
  | mismatch differences =>
    "destination metadata does not match the local image (" ++
      String.intercalate "; " (differences.map MetadataMismatch.message) ++
      "); use overwrite to upload from scratch"
  | alreadyUploaded =>
    "destination already holds a completed upload; use overwrite to replace it"
  | missingMetadata =>
    "destination exists without upload metadata; use overwrite to replace it"
  | incomplete failed =>
    s!"upload incomplete: {failed.length} range(s) failed; re-run to upload the remaining ranges"
  | panicked => "task failed: the source panicked"

end UploadError
end ImageUpload
