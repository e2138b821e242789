import ImageUpload.Source.Basic

namespace ImageUpload

inductive SourceFault where
  | failed (e : TransferError)
  | panicked
  deriving DecidableEq

namespace Reader

inductive FillFault where
  | failed (reason : String)
  | panicked

def endOfSource : FillFault :=
  .failed "failed to fill whole buffer"

/-- Read until `want` more bytes are there.  Interrupted reads are tried again.
Each step brings a byte or uses up an interruption, so `steps` need not exceed the
number of both. -/
def fill : (steps want : Nat) → ByteArray → Reader → Except FillFault ByteArray × Reader
  | _, 0, got, r => (.ok got, r)
  | 0, _ + 1, _, r => (.error endOfSource, r)
  | steps + 1, want + 1, got, r =>
    match r.read (want + 1) with
    | (.bytes b, r) =>
      if b.size = 0 then (.error endOfSource, r)
      else fill steps (want + 1 - b.size) (got ++ b) r
    | (.interrupted, r) => fill steps (want + 1) got r
    | (.failed reason, r) => (.error (.failed reason), r)
    | (.panicked, r) => (.error .panicked, r)

/-- The bytes of a range, read into a buffer of its length.  Without room for the buffer
nothing is called.  A failure is reported at the start of the range, wherever in it the
failing call stood. -/
def readRange (r : Reader) (range : ByteRange) : Except SourceFault ByteArray × Reader :=
  if r.source.room range.length then
    match r.seek range.first with
    | (.failed reason, r) => (.error (.failed (.sourceRead range.first reason)), r)
    | (.panicked, r) => (.error .panicked, r)
    | (.ready, r) =>
      match fill (range.length + r.source.interrupted.length) range.length .empty r with
      | (.ok b, r) => (.ok b, r)
      | (.error (.failed reason), r) => (.error (.failed (.sourceRead range.first reason)), r)
      | (.error .panicked, r) => (.error .panicked, r)
  else (.error .panicked, r)

end Reader
end ImageUpload
