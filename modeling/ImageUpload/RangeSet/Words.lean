import ImageUpload.RangeSet.Basic

/-!
What a set leaves of a range, in words.
-/

namespace ImageUpload
namespace RangeSet

/-- The bytes from `cursor` on that lie before a hole. -/
def front? (cursor : Nat) (hole : ByteRange) : Option (List ByteRange) :=
  if cursor < hole.first then
    (Word.sub? hole.first 1).bind fun last => (ByteRange.between? cursor last).map fun r => [r]
  else some []

/-- What ascending holes leave of the bytes from `cursor` to `last`. -/
def cut? (last : Nat) : (cursor : Nat) → List ByteRange → Option (List ByteRange)
  | cursor, [] => (ByteRange.between? cursor last).map fun r => [r]
  | cursor, hole :: rest =>
    if last < hole.first then (ByteRange.between? cursor last).map fun r => [r]
    else
      (front? cursor hole).bind fun front =>
        match Word.add? hole.last 1 with
        | none => some front
        | some next =>
          if next ≤ last then (cut? last next rest).map fun others => front ++ others
          else some front

def carve? (s : RangeSet) (r : ByteRange) : Option (List ByteRange) :=
  cut? r.last r.first (s.ranges.dropWhile fun a => decide (a.last < r.first))

end RangeSet
end ImageUpload
