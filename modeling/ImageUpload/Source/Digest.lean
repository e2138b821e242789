import ImageUpload.Digest.Sha256
import ImageUpload.Source.Basic

namespace ImageUpload

inductive ReadFault where
  | interrupted
  | failed (reason : String)
  | panicked

namespace ReadFault

def reason : ReadFault → String
  | interrupted => "operation interrupted"
  | failed reason => reason
  | panicked => "panicked"

end ReadFault

namespace Reader

def digestBuffer : Nat := 1024 * 1024

/-- Read on until a read returns nothing.  Unlike the reading of a range, this does
not try an interrupted read again.  Each step but the last moves the position on. -/
def readAll : (steps : Nat) → ByteArray → Reader → Except ReadFault ByteArray × Reader
  | 0, got, r => (.ok got, r)
  | steps + 1, got, r =>
    match r.read digestBuffer with
    | (.bytes b, r) => if b.size = 0 then (.ok got, r) else readAll steps (got ++ b) r
    | (.interrupted, r) => (.error .interrupted, r)
    | (.failed reason, r) => (.error (.failed reason), r)
    | (.panicked, r) => (.error .panicked, r)

/-- The digest of everything the source yields, as hexadecimal text. -/
def digest (r : Reader) : Except ReadFault String :=
  (readAll (r.source.bytes.size + 1) .empty r).1.map Sha256.text

end Reader
end ImageUpload
