import ImageUpload.Range.Basic

namespace ImageUpload

/-- A set of bytes, kept as the list of its maximal runs.  The list is bare so
that `Canonical` is a statement about the operations below and not a field that
their callers would have to discharge. -/
structure RangeSet where
  ranges : List ByteRange
  deriving DecidableEq

namespace RangeSet

/-- Ascending, with at least one absent byte between neighbours.  Such a list is
the only one with its bytes. -/
def Canonical (s : RangeSet) : Prop :=
  s.ranges.Pairwise (fun a b => a.last + 2 ≤ b.first)

instance (s : RangeSet) : Decidable s.Canonical :=
  inferInstanceAs (Decidable (List.Pairwise _ _))

def Has (s : RangeSet) (offset : Nat) : Prop :=
  ∃ r ∈ s.ranges, r.Has offset

instance (s : RangeSet) (offset : Nat) : Decidable (s.Has offset) :=
  inferInstanceAs (Decidable (∃ r ∈ s.ranges, r.Has offset))

def empty : RangeSet := ⟨[]⟩

instance : Inhabited RangeSet := ⟨empty⟩

def isEmpty (s : RangeSet) : Bool :=
  s.ranges.isEmpty

def size (s : RangeSet) : Nat :=
  s.ranges.length

/-- Merge each range of an ascending list into the run before it when the two
touch. -/
def coalesce (run : ByteRange) : List ByteRange → List ByteRange
  | [] => [run]
  | r :: rest =>
    if run.touches r then coalesce (run.hull r) rest else run :: coalesce r rest

/-- Put a range in front of the first of an ascending list that it does not follow. -/
def place (r : ByteRange) : List ByteRange → List ByteRange
  | [] => [r]
  | s :: rest => if (r.ordering s).isLE then r :: s :: rest else s :: place r rest

/-- The set of the bytes of any ranges, in any order, overlapping or not. -/
def ofRanges (l : List ByteRange) : RangeSet :=
  match l.foldr place [] with
  | [] => empty
  | r :: rest => ⟨coalesce r rest⟩

/-- Swallow the leading ranges that touch `run` as it grows. -/
def absorb (run : ByteRange) : List ByteRange → ByteRange × List ByteRange
  | [] => (run, [])
  | r :: rest => if r.touches run then absorb (run.hull r) rest else (run, r :: rest)

/-- Add a range in place.  Of the runs that end before it only the nearest can
touch it. -/
def insert (s : RangeSet) (r : ByteRange) : RangeSet :=
  let below := s.ranges.takeWhile (fun a => decide (a.last < r.first))
  let (run, above) := absorb r (s.ranges.dropWhile (fun a => decide (a.last < r.first)))
  match below.getLast? with
  | some neighbour =>
    if neighbour.touches run then ⟨below.dropLast ++ run.hull neighbour :: above⟩
    else ⟨below ++ run :: above⟩
  | none => ⟨run :: above⟩

def union (s t : RangeSet) : RangeSet :=
  ofRanges (s.ranges ++ t.ranges)

/-- What ascending holes leave of a range. -/
def cut (r : ByteRange) : List ByteRange → List ByteRange
  | [] => [r]
  | hole :: rest =>
    if r.last < hole.first then [r]
    else
      r.before hole.first ++
        if h : hole.last < r.last then cut ⟨hole.last + 1, r.last, h, r.last_lt⟩ rest else []

/-- The parts of a range whose bytes are not in the set. -/
def carve (s : RangeSet) (r : ByteRange) : List ByteRange :=
  cut r (s.ranges.dropWhile (fun a => decide (a.last < r.first)))

def subtract (s t : RangeSet) : RangeSet :=
  ⟨s.ranges.flatMap t.carve⟩

/-- Every byte of the range is in the set.  A range of present bytes lies in one
run, the first that does not end before it. -/
def covers (s : RangeSet) (r : ByteRange) : Bool :=
  (s.ranges.dropWhile (fun a => decide (a.last < r.first))).head?.any (·.contains r)

def totalLength (s : RangeSet) : Nat :=
  (s.ranges.map ByteRange.length).sum

end RangeSet
end ImageUpload
