import ImageUpload.Disk.Basic
import ImageUpload.Layout
import ImageUpload.Store.Basic
import ImageUpload.Store.Sidecar

/-!
A destination in a directory.  The bytes of the object are one file and what is known
of it is a second, the sidecar, which is replaced as a whole after each change.  The
store also keeps the content of the sidecar at hand and answers from there.
-/

namespace ImageUpload

structure DirectoryStore where
  disk : Disk
  dataPath : Path
  sidecarPath : Path
  page : Nat
  /-- The object as the store knows it. -/
  state : Option Sidecar
  page_pos : 0 < page

namespace DirectoryStore

def suffix : String := ".pagesync.json"

/-- What a sidecar file tells of an object.  Without its data file the object does not
exist. -/
def load (files : FileTree) (dataPath sidecarPath : Path) :
    Except StorageError (Option Sidecar) :=
  match files.read sidecarPath with
  | .error .notFound => .ok none
  | .error f => .error (.file f)
  | .ok bytes =>
    match Sidecar.ofBytes? bytes.toBytes with
    | none => .error .malformed
    | some s =>
      match files.present dataPath with
      | .error f => .error (.file f)
      | .ok true => .ok (some s)
      | .ok false => .ok none

def open? (disk : Disk) (directory : Path) (name : String) (page : Nat) :
    Except StorageError DirectoryStore :=
  let dataPath := directory.join name
  let sidecarPath := directory.join (name ++ suffix)
  match load disk.files dataPath sidecarPath with
  | .error e => .error e
  | .ok state => .ok ⟨disk, dataPath, sidecarPath, max 1 page, state, PageStore.max_pos page⟩

/-- The file that is moved over the sidecar once it is complete. -/
def temporaryPath (s : DirectoryStore) : Path :=
  s.sidecarPath.appendToName ".tmp"

/-- The steps that replace the sidecar. -/
def persistence (s : DirectoryStore) (c : Sidecar) : List DiskStep :=
  [.writeFile s.temporaryPath c.text.toUTF8, .rename s.temporaryPath s.sidecarPath]

def perform (s : DirectoryStore) (steps : List DiskStep) :
    Except StorageError Unit × DirectoryStore :=
  match s.disk.run steps with
  | (.error f, disk) => (.error (.file f), { s with disk := disk })
  | (.ok _, disk) => (.ok (), { s with disk := disk })

def properties (s : DirectoryStore) : Option ObjectProperties :=
  s.state.map fun c => ⟨c.size, c.metadata, c.contentHash⟩

def creation (s : DirectoryStore) (size : Nat) : List DiskStep :=
  [.makeDirectories s.dataPath.parent, .truncate s.dataPath, .setLength s.dataPath size,
    .sync s.dataPath]

/-- The new object takes effect once its sidecar is in place. -/
def create (s : DirectoryStore) (size : Nat) (metadata : MetadataMap) :
    Except StorageError Unit × DirectoryStore :=
  if size % s.page ≠ 0 then
    (.error (.rejected s!"object size {size} is not a multiple of {s.page}"), s)
  else
    let c := Sidecar.fresh size metadata
    match s.perform (s.creation size ++ s.persistence c) with
    | (.error e, s) => (.error e, s)
    | (.ok _, s) => (.ok (), { s with state := some c })

/-- The listing is always whole. -/
def list (s : DirectoryStore) : Except StorageError Listing :=
  match s.state with
  | none => .error .notFound
  | some c => .ok ⟨c.written.ranges, none⟩

def transfer (s : DirectoryStore) (range : ByteRange) (data : ByteArray) : List DiskStep :=
  [.openForWriting s.dataPath, .seek s.dataPath range.first,
    .writeAt s.dataPath range.first data, .sync s.dataPath]

/-- The store knows the object anew and makes the sidecar follow. -/
def update (s : DirectoryStore) (c : Sidecar) : Except StorageError Unit × DirectoryStore :=
  { s with state := some c }.perform (s.persistence c)

/-- A range counts as written once its data has been synchronised. -/
def write (s : DirectoryStore) (range : ByteRange) (data : ByteArray) :
    Except StorageError Unit × DirectoryStore :=
  match s.state with
  | none => (.error .notFound, s)
  | some c =>
    match PageStore.refusal? s.page c.size range data with
    | some e => (.error e, s)
    | none =>
      match s.perform (s.transfer range data) with
      | (.error e, s) => (.error e, s)
      | (.ok _, s) => s.update { c with written := c.written.insert range }

def setContentHash (s : DirectoryStore) (hash : String) :
    Except StorageError Unit × DirectoryStore :=
  match s.state with
  | none => (.error .notFound, s)
  | some c => s.update { c with contentHash := some hash }

def contents (s : DirectoryStore) : Option ByteArray :=
  (s.disk.files.read s.dataPath).toOption.map SparseBytes.toBytes

def reopen (s : DirectoryStore) : Except StorageError DirectoryStore :=
  match load s.disk.files s.dataPath s.sidecarPath with
  | .error e => .error e
  | .ok state => .ok { s with disk := s.disk.restart, state := state }

instance : PageStore DirectoryStore where
  pageSize s := s.page
  properties s := .ok s.properties
  create := create
  list s _ := (s.list, s)
  write s range data :=
    match s.write range data with
    | (.error e, s) => (.error (.failed e), s)
    | (.ok _, s) => (.ok (), s)
  setContentHash := setContentHash
  listingBound _ := 1

end DirectoryStore
end ImageUpload
