import ImageUpload.RangeSet.Basic

/-!
The grid an image is cut along.  A page is the least unit the destination can
write and a cell the most that one request carries, rounded up to whole pages.
`locate` keeps the pages of an image that are not wholly present, in pieces that
lie inside one cell.
-/

namespace ImageUpload

structure Layout where
  page : Nat
  chunk : Nat
  deriving DecidableEq

inductive LayoutFault where
  | noPage
  | noChunk
  | unevenImage (size page : Nat)

namespace LayoutFault

def reason : LayoutFault → String
  | noPage => "page size must be > 0"
  | noChunk => "chunk size must be > 0"
  | unevenImage size page => s!"image size {size} is not a multiple of the {page} byte page size"

def toError (f : LayoutFault) : TransferError :=
  .invalidLayout f.reason

end LayoutFault

namespace Layout

def defaultPage : Nat := 512

def defaultChunk : Nat := 4 * 1024 * 1024

def standard : Layout := ⟨defaultPage, defaultChunk⟩

/-- The size of a cell: the chunk size rounded up to whole pages. -/
def cellSize (l : Layout) : Nat :=
  (l.chunk + l.page - 1) / l.page * l.page

def fault? (l : Layout) (size : Nat) : Option LayoutFault :=
  if l.page = 0 then some .noPage
  else if l.chunk = 0 then some .noChunk
  else if size % l.page ≠ 0 then some (.unevenImage size l.page)
  else none

/-- At most `count` cells of an image, from the offset `start` on.  The last cell
ends with the image. -/
def cellsFrom (cell size : Nat) : (count start : Nat) → List ByteRange
  | 0, _ => []
  | count + 1, start =>
    if h : 0 < cell ∧ start < size ∧ size ≤ 2 ^ 64 then
      ⟨start, min (start + cell) size - 1, by omega, by omega⟩ ::
        cellsFrom cell size count (start + cell)
    else []

def cells (l : Layout) (size : Nat) : List ByteRange :=
  cellsFrom l.cellSize size ((size + l.cellSize - 1) / l.cellSize) 0

/-- A piece of a cell widened to whole pages, as far as the cell reaches. -/
def widen (l : Layout) (cell piece : ByteRange) : Option ByteRange :=
  let first := max (piece.first / l.page * l.page) cell.first
  let last := min ((piece.last / l.page + 1) * l.page - 1) cell.last
  if h : first ≤ last ∧ last < 2 ^ 64 then some ⟨first, last, h.1, h.2⟩ else none

/-- What a cell still lacks, in whole pages. -/
def lacking (l : Layout) (present : RangeSet) (cell : ByteRange) : List ByteRange :=
  (RangeSet.ofRanges ((present.carve cell).filterMap (l.widen cell))).ranges

/-- The page aligned ranges of an image that are not wholly present. -/
def locate (l : Layout) (size : Nat) (present : RangeSet) :
    Except TransferError (List ByteRange) :=
  match l.fault? size with
  | some f => .error f.toError
  | none => .ok ((l.cells size).flatMap (l.lacking present))

end Layout
end ImageUpload
