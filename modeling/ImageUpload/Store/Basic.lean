import ImageUpload.Metadata.Map
import ImageUpload.RangeSet.Basic
import ImageUpload.Store.Error

/-!
The contract of a destination: one object of a fixed size that is written in whole
pages.  A call returns the store as it is afterwards, whether or not it succeeds.
-/

namespace ImageUpload

structure ObjectProperties where
  size : Nat
  metadata : MetadataMap
  /-- The digest of the content, recorded once an upload is complete. -/
  contentHash : Option String
  deriving DecidableEq

/-- A part of the list of written ranges.  With no marker, or an empty one, the list
ends here. -/
structure Listing where
  ranges : List ByteRange
  next : Option String
  deriving DecidableEq

inductive WriteFault where
  | failed (e : StorageError)
  | panicked (text : String)
  deriving DecidableEq

class PageStore (σ : Type) where
  /-- The least unit that can be written. -/
  pageSize : σ → Nat
  properties : σ → Except StorageError (Option ObjectProperties)
  /-- A new object of zeros replaces any other. -/
  create : σ → (size : Nat) → MetadataMap → Except StorageError Unit × σ
  /-- The listing from a marker on. -/
  list : σ → (marker : Option String) → Except StorageError Listing × σ
  write : σ → ByteRange → ByteArray → Except WriteFault Unit × σ
  setContentHash : σ → String → Except StorageError Unit × σ
  /-- How many parts the list of written ranges can have at most. -/
  listingBound : σ → Nat

namespace PageStore

/-- A page has at least one byte, whatever the settings say. -/
theorem max_pos (page : Nat) : 0 < max 1 page :=
  Nat.le_max_left 1 page

/-- Why a write does not fit an object.  The first of the reasons counts. -/
def refusal? (page size : Nat) (range : ByteRange) (data : ByteArray) : Option StorageError :=
  if range.isAligned page = false then some (.unaligned range page)
  else if size ≤ range.last then some (.outOfBounds range size)
  else if data.size ≠ range.length then
    some (.rejected (s!"payload of {data.size} bytes does not match range " ++ range.text))
  else none

/-- A write that is not refused lies in the object and brings as many bytes as it names. -/
theorem fits_of_refusal? {page size : Nat} {range : ByteRange} {data : ByteArray}
    (h : refusal? page size range data = none) : range.last < size ∧ data.size = range.length := by
  unfold refusal? at h
  split at h
  next => exact nomatch h
  next =>
    split at h
    next => exact nomatch h
    next hinside =>
      split at h
      next => exact nomatch h
      next hsize => exact ⟨Nat.not_le.mp hinside, Decidable.not_not.mp hsize⟩

variable {σ : Type} [PageStore σ]

/-- Follow the markers of a listing, for at most so many parts. -/
def listFrom : (parts : Nat) → (marker : Option String) → (known : RangeSet) → σ →
    Except StorageError RangeSet × σ
  | 0, _, _, s => (.error (.rejected "the listing does not end"), s)
  | parts + 1, marker, known, s =>
    match list s marker with
    | (.error e, s) => (.error e, s)
    | (.ok l, s) =>
      let known := l.ranges.foldl RangeSet.insert known
      match l.next with
      | none => (.ok known, s)
      | some next => if next = "" then (.ok known, s) else listFrom parts (some next) known s

def listAll (s : σ) : Except StorageError RangeSet × σ :=
  listFrom (listingBound s) none .empty s

end PageStore
end ImageUpload
