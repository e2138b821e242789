import ImageUpload.Progress.Record
import ImageUpload.Range.Text
import ImageUpload.Session.Error

namespace ImageUpload

structure FailedRange where
  range : ByteRange
  attempts : Nat
  error : String
  deriving DecidableEq

inductive SessionOutcome where
  | completed
  /-- So many ranges were not written, and another session would send them. -/
  | incomplete (failed : Nat)
  | sourceFailed
  deriving DecidableEq

namespace SessionOutcome

def isSuccess (o : SessionOutcome) : Bool :=
  decide (o = completed)

end SessionOutcome

inductive UploadEvent where
  | planned (size effective ranges : Nat)
  | progress (r : ProgressRecord)
  | rangeFailed (f : FailedRange)
  /-- The bytes sent and the percentage of the image that is in place. -/
  | finished (outcome : SessionOutcome) (bytes : Nat) (percent : Float)

structure SessionResult where
  success : Bool
  failed : List FailedRange
  /-- The bytes that this session wrote. -/
  bytes : Nat
  progress : ProgressRecord

namespace SessionResult

/-- A session that did not succeed as an error. -/
def toExcept (r : SessionResult) : Except UploadError SessionResult :=
  if r.success then .ok r else .error (.incomplete (r.failed.map fun f => f.range.id))

end SessionResult
end ImageUpload
