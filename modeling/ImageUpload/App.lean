import ImageUpload.Config.Basic
import ImageUpload.Session.Sync
import ImageUpload.Store.Directory

/-!
One upload as the settings ask for it: the image is hashed, the object opened, and the
two are brought together.  Both lie on one disk, and the image stays open while the
object changes.
-/

namespace ImageUpload

inductive AppError where
  /-- The image cannot be read. -/
  | source
  /-- The object cannot be opened. -/
  | opening (e : StorageError)
  | upload (e : UploadError)

namespace AppError

def message : AppError → String
  | source => "the source image cannot be read"
  | opening e => e.message
  | upload e => e.message

end AppError

structure AppRun where
  result : Except AppError SessionResult
  events : List UploadEvent
  files : FileTree

namespace App

def identify? (source : String) (modified : Option Instant) (files : FileTree) :
    Option ImageMetadata :=
  match files.read (Path.join [] source), modified with
  | .ok bytes, some modified =>
    ImageMetadata.ofFile? ((Path.lastName? (Path.names source)).getD "") bytes.toBytes modified
  | _, _ => none

/-- An open image beside a store on the same disk.  Its size stays what it was when the
image was opened. -/
def sourceBeside (image size : Nat) (s : DirectoryStore) : Source :=
  { Source.ofBytes ((s.disk.openBytes? image).getD .empty).toBytes with size := size }

/-- Run one upload on the files below the working directory.  `modified` is the time at
which the image was changed last. -/
def run (processors : Nat) (config : Config) (modified : Option Instant) (files : FileTree) :
    AppRun :=
  match identify? config.source modified files,
    (Disk.ofFiles files).openFile (Path.join [] config.source) with
  | some here, .ok (image, disk) =>
    match DirectoryStore.open? disk (Path.join [] config.destination) config.object
      config.pageSize with
    | .error e => ⟨.error (.opening e), [], files⟩
    | .ok store =>
      let r := Sync.run (config.uploadOptions processors) true config.overwrite
        (sourceBeside image here.size) here store
      ⟨r.result.mapError .upload, r.events, r.store.disk.files⟩
  | _, _ => ⟨.error .source, [], files⟩

end App
end ImageUpload
