import ImageUpload.Disk.Step

/-!
Files that stay open while the disk changes.  What is open is the file and not its
path: it goes along when it is renamed, and when another file takes its place it lives
on apart from the tree.
-/

namespace ImageUpload

inductive OpenFile where
  | placed (l : Location)
  /-- Another file stands in its place. -/
  | replaced (bytes : SparseBytes)

namespace OpenFile

def open? (t : FileTree) (p : Path) : Except FileFault OpenFile :=
  (t.find p).map fun (l, _) => placed l

def bytes (t : FileTree) : OpenFile → SparseBytes
  | placed l =>
    match t.node? l with
    | some (.file b) => b
    | _ => .empty
  | replaced b => b

/-- The file after the one at `old` has been moved to `new`. -/
def renamed (t : FileTree) (f : OpenFile) (old new : Location) : OpenFile :=
  match f with
  | placed l =>
    if l = old then placed new else if l = new then replaced (f.bytes t) else f
  | replaced _ => f

/-- The file after a step on the tree.  Every other change is made within a file. -/
def after (t : FileTree) (f : OpenFile) : DiskStep → OpenFile
  | .rename old new =>
    match t.locate old, t.locate new with
    | .ok old, .ok new => f.renamed t old new
    | _, _ => f
  | _ => f

end OpenFile
end ImageUpload
