import ImageUpload.Metadata.Entry
import ImageUpload.Session.Upload

/-!
Bringing an image to its destination, in as many sessions as it takes.  A destination
that already holds a part of the same image is resumed, and any other is left alone.
-/

namespace ImageUpload

inductive SessionStart where
  | fresh
  | resume (present : RangeSet)
  deriving DecidableEq

namespace EntryFault

def toError : EntryFault → StorageError
  | letters => .invalidMetadata "not in base64 letters"
  | document => .malformed

end EntryFault

namespace Sync

variable {σ : Type} [PageStore σ]

def createFor (here : ImageMetadata) (s : σ) : Except UploadError SessionStart × σ :=
  match PageStore.create s here.size here.toEntries with
  | (.error e, s) => (.error (.storage e), s)
  | (.ok _, s) => (.ok .fresh, s)

/-- Go on with an object that records the identity of the image. -/
def resumeFrom (here : ImageMetadata) (found : ObjectProperties) (s : σ) :
    Except UploadError SessionStart × σ :=
  if found.contentHash.isSome then (.error .alreadyUploaded, s)
  else
    match ImageMetadata.ofEntries found.metadata with
    | .error f => (.error (.storage f.toError), s)
    | .ok none => (.error .missingMetadata, s)
    | .ok (some remote) =>
      if remote.compare here ≠ [] then (.error (.mismatch (remote.compare here)), s)
      else
        match PageStore.listAll s with
        | (.error e, s) => (.error (.storage e), s)
        | (.ok present, s) => (.ok (.resume present), s)

/-- Find out where to start.  With `overwrite` nobody asks what is there. -/
def prepare (overwrite : Bool) (here : ImageMetadata) (s : σ) :
    Except UploadError SessionStart × σ :=
  if overwrite then createFor here s
  else
    match PageStore.properties s with
    | .error e => (.error (.storage e), s)
    | .ok none => createFor here s
    | .ok (some found) => resumeFrom here found s

/-- Record the digest of an image that is complete. -/
def recordHash (here : ImageMetadata) (r : UploadRun σ) : UploadRun σ :=
  match r.result.bind SessionResult.toExcept with
  | .error e => { r with result := .error e }
  | .ok result =>
    match PageStore.setContentHash r.store here.contentHash with
    | (.error e, s) => { r with result := .error (.storage e), store := s }
    | (.ok _, s) => { r with result := .ok result, store := s }

/-- One session towards a complete object.  The image may lie where the object does, so
that making the object changes it: `source` tells what the image is beside a state of
the destination, and the session reads what it is once the object is there. -/
def runBy (drive : Session σ → Session σ) (options : UploadOptions) (overwrite : Bool)
    (source : σ → Source) (here : ImageMetadata) (s : σ) : UploadRun σ :=
  match prepare overwrite here s with
  | (.error e, s) => .refused e s
  | (.ok .fresh, s) => recordHash here (Upload.runBy drive options none (source s) .empty false s)
  | (.ok (.resume present), s) =>
    recordHash here (Upload.runBy drive options none (source s) present true s)

def run (options : UploadOptions) (watched overwrite : Bool) (source : σ → Source)
    (here : ImageMetadata) (s : σ) : UploadRun σ :=
  runBy (Session.complete watched) options overwrite source here s

end Sync
end ImageUpload
