import ImageUpload.Bytes.Sparse
import ImageUpload.Disk.Path

/-!
Files and directories under one root, which is a directory and always there.  A path is
followed name by name, and every name has to be taken from a directory that exists.
-/

namespace ImageUpload

inductive FileFault where
  | notFound
  | isDirectory
  | notDirectory
  | alreadyThere
  | invalidArgument
  | nameTooLong
  | device (reason : String)
  deriving DecidableEq

namespace FileFault

def reason : FileFault → String
  | notFound => "No such file or directory (os error 2)"
  | isDirectory => "Is a directory (os error 21)"
  | notDirectory => "Not a directory (os error 20)"
  | alreadyThere => "File exists (os error 17)"
  | invalidArgument => "Invalid argument (os error 22)"
  | nameTooLong => "File name too long (os error 36)"
  | device reason => reason

end FileFault

inductive Node where
  | file (bytes : SparseBytes)
  | directory

/-- The names from the root to a node, each of which goes one level down. -/
abbrev Location := List String

structure FileTree where
  nodes : List (Location × Node)

namespace FileTree

def empty : FileTree :=
  ⟨[]⟩

def node? (t : FileTree) (l : Location) : Option Node :=
  match l with
  | [] => some .directory
  | _ => t.nodes.lookup l

def set (t : FileTree) (l : Location) (n : Node) : FileTree :=
  ⟨(l, n) :: t.nodes.filter (fun e => decide (e.1 ≠ l))⟩

def erase (t : FileTree) (l : Location) : FileTree :=
  ⟨t.nodes.filter (fun e => decide (e.1 ≠ l))⟩

def longestName : Nat := 255

def longestPath : Nat := 4095

/-- No file reaches past this offset. -/
def largest : Nat := 2 ^ 63

def followFrom (t : FileTree) (l : Location) : List String → Except FileFault Location
  | [] => .ok l
  | name :: rest =>
    match t.node? l with
    | none => .error .notFound
    | some (.file _) => .error .notDirectory
    | some .directory =>
      if Path.stays name then t.followFrom l rest
      else if name = ".." then t.followFrom l.dropLast rest
      else if longestName < name.utf8ByteSize then .error .nameTooLong
      else t.followFrom (l ++ [name]) rest

/-- What is wrong with a path on any disk. -/
def unfit? (p : Path) : Option FileFault :=
  if p.any (·.toList.contains '\x00') then some .invalidArgument
  else if longestPath < p.length then some .nameTooLong
  else none

/-- Where a path leads to, whether or not a node is there. -/
def locate (t : FileTree) (p : Path) : Except FileFault Location :=
  match unfit? p with
  | some f => .error f
  | none => t.followFrom [] p

def find (t : FileTree) (p : Path) : Except FileFault (Location × SparseBytes) :=
  match t.locate p with
  | .error f => .error f
  | .ok l =>
    match t.node? l with
    | none => .error .notFound
    | some .directory => .error .isDirectory
    | some (.file bytes) => .ok (l, bytes)

def read (t : FileTree) (p : Path) : Except FileFault SparseBytes :=
  (t.find p).map Prod.snd

/-- Whether a node exists.  A directory that is missing on the way is an answer, and
a file in place of a directory is not. -/
def present (t : FileTree) (p : Path) : Except FileFault Bool :=
  match t.locate p with
  | .error .notFound => .ok false
  | .error f => .error f
  | .ok l => .ok (t.node? l).isSome

/-- Put bytes at a path where no directory stands. -/
def put (t : FileTree) (p : Path) (bytes : SparseBytes) : Except FileFault FileTree :=
  match t.locate p with
  | .error f => .error f
  | .ok l =>
    match t.node? l with
    | some .directory => .error .isDirectory
    | _ => .ok (t.set l (.file bytes))

def alter (t : FileTree) (p : Path) (f : SparseBytes → SparseBytes) :
    Except FileFault FileTree :=
  (t.find p).map fun (l, bytes) => t.set l (.file (f bytes))

/-- Follow names from a directory and make every directory that is missing.  Those made
before a name at which this fails stay. -/
def makeDirectoriesFrom (t : FileTree) (l : Location) :
    List String → Except FileFault Unit × FileTree
  | [] => (.ok (), t)
  | name :: rest =>
    if Path.stays name then t.makeDirectoriesFrom l rest
    else if name = ".." then t.makeDirectoriesFrom l.dropLast rest
    else if longestName < name.utf8ByteSize then (.error .nameTooLong, t)
    else
      match t.node? (l ++ [name]) with
      | some (.file _) =>
        (.error (if rest.all Path.stays then .alreadyThere else .notDirectory), t)
      | some .directory => t.makeDirectoriesFrom (l ++ [name]) rest
      | none => (t.set (l ++ [name]) .directory).makeDirectoriesFrom (l ++ [name]) rest

/-- Every directory on the way along a path exists afterwards, or all up to an obstacle. -/
def makeDirectories (t : FileTree) (p : Path) : Except FileFault Unit × FileTree :=
  match unfit? p with
  | some f => (.error f, t)
  | none => t.makeDirectoriesFrom [] p

def remove (t : FileTree) (p : Path) : Except FileFault FileTree :=
  (t.find p).map fun (l, _) => t.erase l

/-- Move a file over whatever file stands at the new path. -/
def rename (t : FileTree) (old new : Path) : Except FileFault FileTree :=
  match t.find old with
  | .error e => .error e
  | .ok (l, bytes) => (t.erase l).put new bytes

/-- The nodes below a directory by their paths from there, a directory with a slash
at its end, in alphabetical order. -/
def listing (t : FileTree) (base : Location) : List String :=
  (t.nodes.filterMap fun (l, n) =>
    if base.isPrefixOf l ∧ l ≠ base then
      let text := String.intercalate "/" (l.drop base.length)
      some (match n with
        | .file _ => text
        | .directory => text ++ "/")
    else none).mergeSort (fun a b => decide (a ≤ b))

end FileTree
end ImageUpload
