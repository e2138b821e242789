import ImageUpload.Layout
import ImageUpload.RangeSet.Words

/-!
The cut of an image into cells, and what of them is not present, with every sum,
difference and product taken in words.  There is no result where a word overflows, or
where a list of all cells would take more than one piece of memory.
-/

namespace ImageUpload
namespace Layout

def cellSize? (l : Layout) : Option Nat :=
  (Word.ceilDiv? l.chunk l.page).bind fun pages => Word.mul? pages l.page

/-- Cut off cell after cell from `start` on until nothing is left, if so many rounds are
enough. -/
def cutFrom? (cell size : Nat) :
    (rounds start : Nat) → Option (Except TransferError (List ByteRange))
  | 0, start => if start < size then none else some (.ok [])
  | rounds + 1, start =>
    if start < size then
      (Word.sub? size start).bind fun rest =>
        match ByteRange.ofLength start (min cell rest) with
        | .error e => some (.error e)
        | .ok r =>
          (Word.add? start (min cell rest)).bind fun next =>
            (cutFrom? cell size rounds next).map fun cells => cells.map (r :: ·)
    else some (.ok [])

/-- The memory that one cell of a list takes. -/
def cellMemory : Nat := 16

/-- The cells of an image.  There has to be room for all of them before the first one is
cut off. -/
def partition? (l : Layout) (size : Nat) : Option (Except TransferError (List ByteRange)) :=
  match l.fault? size with
  | some f => some (.error f.toError)
  | none =>
    l.cellSize?.bind fun cell =>
      (Word.ceilDiv? size cell).bind fun count =>
        if Word.allocatable (cellMemory * count) then cutFrom? cell size count 0 else none

/-- A piece of a cell widened to whole pages, as far as the cell reaches.  What the program
would saturate has no result here. -/
def widen? (l : Layout) (cell piece : ByteRange) : Option ByteRange :=
  (Word.mul? (piece.first / l.page) l.page).bind fun first =>
    (Word.add? (piece.last / l.page) 1).bind fun pages =>
      (Word.mul? pages l.page).bind fun stop =>
        (Word.sub? stop 1).bind fun last =>
          ByteRange.between? (max first cell.first) (min last cell.last)

def lacking? (l : Layout) (present : RangeSet) (cell : ByteRange) : Option (List ByteRange) :=
  (present.carve? cell).bind fun pieces =>
    (pieces.mapM (l.widen? cell)).map fun widened => (RangeSet.ofRanges widened).ranges

def locate? (l : Layout) (size : Nat) (present : RangeSet) :
    Option (Except TransferError (List ByteRange)) :=
  (l.partition? size).bind fun
    | .error e => some (.error e)
    | .ok cells => (cells.mapM (l.lacking? present)).map fun located => .ok located.flatten

end Layout
end ImageUpload
