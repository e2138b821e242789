namespace ImageUpload

inductive TransferError where
  | io (reason : String)
  | sourceRead (offset : Nat) (reason : String)
  | invalidRange (first last : Nat)
  | invalidLayout (reason : String)
  deriving DecidableEq

namespace TransferError

def message : TransferError → String
  | io reason => s!"I/O error: {reason}"
  | sourceRead offset reason => s!"source read failed at offset {offset}: {reason}"
  | invalidRange first last => s!"invalid range: start {first} > end {last}"
  | invalidLayout reason => s!"invalid layout: {reason}"

end TransferError
end ImageUpload
