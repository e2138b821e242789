import ImageUpload.Bytes.Sparse
import ImageUpload.Layout
import ImageUpload.Store.Basic
import ImageUpload.Text.Printable

namespace ImageUpload

structure MemoryObject where
  data : SparseBytes
  metadata : MetadataMap
  contentHash : Option String
  written : RangeSet

structure MemoryStore where
  page : Nat
  /-- How many ranges one part of a listing holds. -/
  listingLength : Nat
  object : Option MemoryObject
  page_pos : 0 < page
  listingLength_pos : 0 < listingLength

namespace MemoryStore

def defaultListingLength : Nat := 1000

/-- A store without an object.  A page has at least one byte, and a part of a listing
at least one range. -/
def empty (page listingLength : Nat) : MemoryStore :=
  ⟨max 1 page, max 1 listingLength, none, PageStore.max_pos page,
    PageStore.max_pos listingLength⟩

def properties (s : MemoryStore) : Option ObjectProperties :=
  s.object.map fun o => ⟨o.data.size, o.metadata, o.contentHash⟩

/-- Make a new object of zeros.  Memory for it is taken to be there, also for sizes past those
that `Word.allocatable` admits. -/
def create (s : MemoryStore) (size : Nat) (metadata : MetadataMap) :
    Except StorageError Unit × MemoryStore :=
  if size % s.page ≠ 0 then
    (.error (.rejected s!"object size {size} is not a multiple of {s.page}"), s)
  else (.ok (), { s with object := some ⟨.zeros size, metadata, none, .empty⟩ })

/-- The number that a marker names: digits, and a sign if it is positive, for a word of
sixty-four bits. -/
def markerOffset? (marker : String) : Option Nat :=
  let digits := match marker.toList with
    | '+' :: rest => rest
    | cs => cs
  if digits.isEmpty || !digits.all Char.isDigit then none
  else
    let n := Nat.ofDigitChars 10 digits 0
    if n < 2 ^ 64 then some n else none

def startOf (marker : Option String) : Except StorageError Nat :=
  match marker with
  | none => .ok 0
  | some m =>
    if m = "" then .ok 0
    else
      match markerOffset? m with
      | some n => .ok n
      | none => .error (.rejected ("invalid marker " ++ quoteVisible m))

/-- A marker is the place of the next range in the list of all. -/
def list (s : MemoryStore) (marker : Option String) : Except StorageError Listing :=
  match s.object with
  | none => .error .notFound
  | some o =>
    match startOf marker with
    | .error e => .error e
    | .ok start =>
      let all := o.written.ranges
      let stop := min (start + s.listingLength) all.length
      .ok ⟨(all.take stop).drop start,
        if stop < all.length then some (toString stop) else none⟩

def write (s : MemoryStore) (range : ByteRange) (data : ByteArray) :
    Except WriteFault Unit × MemoryStore :=
  match s.object with
  | none => (.error (.failed .notFound), s)
  | some o =>
    match PageStore.refusal? s.page o.data.size range data with
    | some e => (.error (.failed e), s)
    | none =>
      (.ok (), { s with object := some { o with
        data := o.data.write range.first data
        written := o.written.insert range } })

def setContentHash (s : MemoryStore) (hash : String) : Except StorageError Unit × MemoryStore :=
  match s.object with
  | none => (.error .notFound, s)
  | some o => (.ok (), { s with object := some { o with contentHash := some hash } })

def contents (s : MemoryStore) : Option ByteArray :=
  s.object.map fun o => o.data.toBytes

def written (s : MemoryStore) : RangeSet :=
  (s.object.map MemoryObject.written).getD .empty

/-- Each part of a listing but the last goes on by one written run, of which each has
a page of its own. -/
def listingBound (s : MemoryStore) : Nat :=
  match s.object with
  | none => 1
  | some o => o.data.size / s.page + 2

instance : PageStore MemoryStore where
  pageSize s := s.page
  properties s := .ok s.properties
  create := create
  list s marker := (s.list marker, s)
  write := write
  setContentHash := setContentHash
  listingBound := listingBound

end MemoryStore
end ImageUpload
