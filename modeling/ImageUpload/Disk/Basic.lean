import ImageUpload.Disk.OpenFile

/-!
A disk on which any step may go wrong.  Every change to a file is one numbered step.
A step can fail, and a failing write can leave a part of its data behind.  The whole
process can also stop before a step, and from then on nothing happens until it is
started again.
-/

namespace ImageUpload

inductive Trouble where
  /-- The step fails once a write has written so many bytes. -/
  | fails (written : Nat) (reason : String)
  /-- The process stops before the step. -/
  | stops

structure StepRecord where
  step : DiskStep
  result : Except FileFault Unit

structure Disk where
  files : FileTree
  /-- Every step so far.  The next one has its length for a number. -/
  log : List StepRecord
  trouble : Nat → Option Trouble
  stopped : Bool
  /-- The files that are open, in the order they were opened. -/
  opened : List OpenFile

namespace Disk

def ofFiles (t : FileTree) : Disk :=
  ⟨t, [], fun _ => none, false, []⟩

def halted : FileFault :=
  .device "stopped"

/-- What a step leaves behind that fails early. -/
def leave (t : FileTree) (s : DiskStep) (written : Nat) : FileTree :=
  match s.begun written with
  | none => t
  | some s => (s.apply t).2

/-- The files after a step, and what the step reports. -/
def attempt (t : FileTree) (s : DiskStep) : Option (Nat × String) → Except FileFault Unit × FileTree
  | some (written, reason) => (.error (.device reason), leave t s written)
  | none => s.apply t

/-- Take a step.  Open files follow it if it succeeds. -/
def take (d : Disk) (s : DiskStep) (failure : Option (Nat × String)) :
    Except FileFault Unit × Disk :=
  let (result, files) := attempt d.files s failure
  let opened := if result.isOk then d.opened.map (·.after d.files s) else d.opened
  (result, { d with files := files, log := d.log ++ [⟨s, result⟩], opened := opened })

def perform (d : Disk) (s : DiskStep) : Except FileFault Unit × Disk :=
  if d.stopped then (.error halted, d)
  else
    match d.trouble d.log.length with
    | some .stops =>
      (.error halted, { d with stopped := true, log := d.log ++ [⟨s, .error halted⟩] })
    | some (.fails written reason) => d.take s (some (written, reason))
    | none => d.take s none

def run (d : Disk) : List DiskStep → Except FileFault Unit × Disk
  | [] => (.ok (), d)
  | s :: rest =>
    match d.perform s with
    | (.error f, d) => (.error f, d)
    | (.ok _, d) => d.run rest

def openFile (d : Disk) (p : Path) : Except FileFault (Nat × Disk) :=
  (OpenFile.open? d.files p).map fun f =>
    (d.opened.length, { d with opened := d.opened ++ [f] })

/-- What the open file of a number holds by now. -/
def openBytes? (d : Disk) (number : Nat) : Option SparseBytes :=
  (d.opened[number]?).map (·.bytes d.files)

/-- The process is started again.  No file is open then. -/
def restart (d : Disk) : Disk :=
  { d with stopped := false, opened := [] }

end Disk
end ImageUpload
