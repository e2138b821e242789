import ImageUpload.Layout
import ImageUpload.Source.Reading

/-!
The work of one session: the ranges of the image that are neither present at the
destination nor all zero.
-/

namespace ImageUpload

def isZeroed (b : ByteArray) : Bool :=
  b.data.all (· == 0)

/-- The ranges to send, and the size of the whole image. -/
structure Plan where
  size : Nat
  ranges : List ByteRange

namespace Plan

/-- How many bytes the session is to send. -/
def effective (p : Plan) : Nat :=
  (p.ranges.map ByteRange.length).sum

/-- How many bytes need no transfer. -/
def already (p : Plan) : Nat :=
  p.size - p.effective

def isEmpty (p : Plan) : Bool :=
  p.ranges.isEmpty

end Plan

namespace Reader

/-- The ranges whose bytes are not all zero.  The first range that cannot be read
ends the pass. -/
def nonZero : List ByteRange → Reader → Except SourceFault (List ByteRange) × Reader
  | [], r => (.ok [], r)
  | range :: rest, r =>
    match r.readRange range with
    | (.error e, r) => (.error e, r)
    | (.ok b, r) =>
      match nonZero rest r with
      | (.error e, r) => (.error e, r)
      | (.ok kept, r) => (.ok (if isZeroed b then kept else range :: kept), r)

/-- The plan for an image of which some ranges are present already. -/
def reconcile (r : Reader) (layout : Layout) (present : RangeSet) :
    Except SourceFault Plan × Reader :=
  let size := r.source.size
  match layout.locate size present with
  | .error e => (.error (.failed e), r)
  | .ok candidates =>
    match nonZero candidates r with
    | (.error e, r) => (.error e, r)
    | (.ok ranges, r) => (.ok ⟨size, ranges⟩, r)

end Reader
end ImageUpload
