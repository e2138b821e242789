import ImageUpload.Range.Basic

namespace ImageUpload
namespace ByteRange

/-- The name under which the upload of this range is known. -/
def id (r : ByteRange) : String :=
  s!"{r.first}-{r.last}"

def text (r : ByteRange) : String :=
  s!"[{r.first}, {r.last}]"

end ByteRange
end ImageUpload
