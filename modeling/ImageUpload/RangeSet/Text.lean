import ImageUpload.Json.Reader
import ImageUpload.Json.Record
import ImageUpload.Json.Writer
import ImageUpload.RangeSet.Basic

namespace ImageUpload

open Json (Value)

/-!
Ranges and sets of ranges as documents.  A range is a record of its two ends and a
set is the array of its runs.  Reading a set accepts any ranges and normalises
them, so every text that is read at all names a canonical set.
-/

namespace ByteRange

def toValue (r : ByteRange) : Value :=
  .object [(some "start", .natural r.first), (some "end", .natural r.last)]

def ofValue? (v : Value) : Option ByteRange :=
  match v.fields? ["start", "end"] with
  | some [some first, some last] =>
    match first.asWord?, last.asWord? with
    | some first, some last => (between first last).toOption
    | _, _ => none
  | _ => none

def json (r : ByteRange) : String :=
  r.toValue.compact

def ofJson? (text : String) : Option ByteRange :=
  (Value.ofString? text).bind ofValue?

end ByteRange

namespace RangeSet

def toValue (s : RangeSet) : Value :=
  .array (s.ranges.map ByteRange.toValue)

def ofValue? (v : Value) : Option RangeSet :=
  ((v.asArray?).bind (·.mapM ByteRange.ofValue?)).map ofRanges

def json (s : RangeSet) : String :=
  s.toValue.compact

def ofJson? (text : String) : Option RangeSet :=
  (Value.ofString? text).bind ofValue?

end RangeSet
end ImageUpload
