import ImageUpload.Number.Word
import ImageUpload.TransferError

namespace ImageUpload

/-- The bytes of an image from `first` to `last`, both included.  The end is
closed so that the very last sixty-four bit offset is reachable, which no
half-open range of sixty-four bit offsets contains. -/
@[ext]
structure ByteRange where
  first : Nat
  last : Nat
  first_le_last : first ≤ last
  last_lt : last < 2 ^ 64

namespace ByteRange

instance : DecidableEq ByteRange :=
  fun _ _ => decidable_of_iff' _ ByteRange.ext_iff

/-- The range between two offsets.  Offsets past sixty-four bits name no byte. -/
def between (first last : Nat) : Except TransferError ByteRange :=
  if h : first ≤ last ∧ last < 2 ^ 64 then .ok ⟨first, last, h.1, h.2⟩
  else .error (.invalidRange first last)

/-- The `length` bytes from `first` on.  A refusal quotes the end as sixty-four
bit arithmetic leaves it, so a length of zero at offset zero names the largest
offset. -/
def ofLength (first length : Nat) : Except TransferError ByteRange :=
  if h : 0 < length ∧ first + length ≤ 2 ^ 64 then
    .ok ⟨first, first + length - 1, by omega, by omega⟩
  else .error (.invalidRange first ((first + length + (2 ^ 64 - 1)) % 2 ^ 64))

/-- The number of bytes.  No word holds that of the range of all offsets. -/
def length (r : ByteRange) : Nat :=
  r.last - r.first + 1

/-- The length in words. -/
def length? (r : ByteRange) : Option Nat :=
  (Word.sub? r.last r.first).bind (Word.add? · 1)

/-- The range between two offsets, if there is one. -/
def between? (first last : Nat) : Option ByteRange :=
  (between first last).toOption

def Has (r : ByteRange) (offset : Nat) : Prop :=
  r.first ≤ offset ∧ offset ≤ r.last

instance (r : ByteRange) (offset : Nat) : Decidable (r.Has offset) :=
  inferInstanceAs (Decidable (_ ∧ _))

def overlaps (r s : ByteRange) : Bool :=
  decide (r.first ≤ s.last) && decide (s.first ≤ r.last)

/-- The two ranges share a byte or sit back to back, so that their union is a
range again. -/
def touches (r s : ByteRange) : Bool :=
  r.overlaps s || decide (r.last + 1 = s.first) || decide (s.last + 1 = r.first)

def contains (r s : ByteRange) : Bool :=
  decide (r.first ≤ s.first) && decide (s.last ≤ r.last)

/-- The order by first byte, then by last. -/
def ordering (r s : ByteRange) : Ordering :=
  (compare r.first s.first).then (compare r.last s.last)

/-- The smallest range over both. -/
def hull (r s : ByteRange) : ByteRange :=
  ⟨min r.first s.first, max r.last s.last,
    by have := r.first_le_last; omega,
    by have := r.last_lt; have := s.last_lt; omega⟩

/-- The range begins and ends on a boundary between pages.  The offset after the
last byte is a sixty-four bit word, so a range up to the largest offset ends on
a boundary of every page size. -/
def isAligned (r : ByteRange) (page : Nat) : Bool :=
  decide (0 < page) && decide (r.first % page = 0) && decide ((r.last + 1) % 2 ^ 64 % page = 0)

def before (r : ByteRange) (offset : Nat) : List ByteRange :=
  if h : r.first < offset ∧ offset ≤ r.last then
    [⟨r.first, offset - 1, by omega, by have := r.last_lt; omega⟩]
  else []

end ByteRange
end ImageUpload
