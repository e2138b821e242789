namespace ImageUpload
namespace Json

/-!
The text of a document as symbols.  A document may arrive as bytes that are no
valid UTF-8.  That is an error only where a character is needed, and a string
literal that nobody reads needs none, so a byte that is part of no character
becomes the symbol `none` and the grammar decides.
-/

abbrev Symbol := Option Char

namespace Symbol

def ofString (s : String) : List Symbol :=
  s.toList.map some

/-- Read on from byte `i`, one symbol for each character and for each byte that
begins none. -/
def scan (b : ByteArray) (i : Nat) : List Symbol :=
  if i < b.size then
    match b.utf8DecodeChar? i with
    | some c => some c :: scan b (i + c.utf8Size)
    | none => none :: scan b (i + 1)
  else []
  termination_by b.size - i
  decreasing_by
    · have := c.utf8Size_pos; omega
    · omega

def ofBytes (b : ByteArray) : List Symbol :=
  match String.fromUTF8? b with
  | some s => ofString s
  | none => scan b 0

end Symbol
end Json
end ImageUpload
