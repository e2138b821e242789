import ImageUpload.Disk.FileTree

/-!
The steps by which files change, and what each of them does to the files.
-/

namespace ImageUpload

inductive DiskStep where
  | makeDirectories (p : Path)
  /-- Create a file, or empty it. -/
  | truncate (p : Path)
  | setLength (p : Path) (n : Nat)
  | sync (p : Path)
  | openForWriting (p : Path)
  | seek (p : Path) (offset : Nat)
  | writeAt (p : Path) (offset : Nat) (data : ByteArray)
  /-- Create or replace a whole file. -/
  | writeFile (p : Path) (data : ByteArray)
  | rename (old new : Path)

namespace DiskStep

/-- A change that is made as a whole or not at all. -/
def whole (t : FileTree) : Except FileFault FileTree → Except FileFault Unit × FileTree
  | .error f => (.error f, t)
  | .ok t => (.ok (), t)

/-- What a step reports if nothing disturbs it, and the files after it. -/
def apply (t : FileTree) : DiskStep → Except FileFault Unit × FileTree
  | makeDirectories p => t.makeDirectories p
  | truncate p => whole t (t.put p .empty)
  | setLength p n =>
    if FileTree.largest ≤ n then (.error .invalidArgument, t)
    else whole t (t.alter p (·.resize n))
  | sync _ => (.ok (), t)
  | openForWriting p => ((t.read p).map fun _ => (), t)
  | seek _ offset =>
    if FileTree.largest ≤ offset then (.error .invalidArgument, t) else (.ok (), t)
  | writeAt p offset data => whole t (t.alter p (·.write offset data))
  | writeFile p data => whole t (t.put p (.ofBytes data))
  | rename old new => whole t (t.rename old new)

/-- What a failing step has done by then, of which only a write does anything. -/
def begun (written : Nat) : DiskStep → Option DiskStep
  | writeAt p offset data => some (writeAt p offset (data.extract 0 written))
  | writeFile p data => some (writeFile p (data.extract 0 written))
  | _ => none

end DiskStep

end ImageUpload
