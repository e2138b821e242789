import ImageUpload.App
import ImageUpload.Config.Text
import ImageUpload.Display

/-!
The command.  It reads the settings named by its first argument, or the default ones,
and the files that one upload needs, runs the upload on them, and writes back what has
changed.
-/

namespace ImageUpload
namespace Command

def readFile? (path : String) : IO (Option ByteArray) := do
  try
    return some (← IO.FS.readBinFile path)
  catch _ =>
    return none

def readTime? (path : String) : IO (Option Instant) := do
  try
    let time := (← (← IO.FS.realPath path).metadata).modified
    return Instant.of? time.sec time.nsec.toNat
  catch _ =>
    return none

def pathText (p : Path) : String :=
  String.join (p.map ("/" ++ ·))

/-- A path that is the same in every working directory. -/
def anchored (directory path : String) : String :=
  pathText (Path.join (Path.join [] directory) path)

def objectPaths (config : Config) : List Path :=
  let directory := Path.join [] config.destination
  [directory.join config.object, directory.join (config.object ++ DirectoryStore.suffix)]

def plant (t : FileTree) (p : Path) (bytes : ByteArray) : FileTree :=
  let t := (t.makeDirectories p.parent).2
  (t.put p (.ofBytes bytes)).toOption.getD t

def readFiles (config : Config) : IO FileTree :=
  (Path.join [] config.source :: objectPaths config).foldlM (fun t p => do
    match ← readFile? (pathText p) with
    | some bytes => return plant t p bytes
    | none => return t) FileTree.empty

/-- The object, and the image if it was moved away. -/
def writeFiles (config : Config) (old new : FileTree) : IO Unit := do
  let image := Path.join [] config.source
  if (old.read image).isOk && !(new.read image).isOk then
    IO.FS.removeFile (pathText image)
  for p in objectPaths config do
    match new.read p with
    | .ok bytes =>
      IO.FS.createDirAll (pathText p.parent)
      IO.FS.writeBinFile (pathText p) bytes.toBytes
    | .error _ => pure ()

def load (arguments : List String) : IO (Except ConfigError Config) := do
  match arguments with
  | path :: _ => return Config.load (← readFile? path)
  | [] =>
    let home := (← IO.getEnv "HOME").getD "/tmp"
    let path := home ++ "/" ++ Config.defaultPath
    let old ← readFile? path
    let (config, new) := Config.loadDefault old
    match old, new with
    | none, some bytes =>
      IO.FS.createDirAll (home ++ "/" ++ Config.defaultDirectory)
      IO.FS.writeBinFile path bytes
    | _, _ => pure ()
    return config

def fail (message : String) : IO UInt32 := do
  IO.eprintln ("Error: " ++ message)
  return 1

end Command
end ImageUpload

open ImageUpload in
def main (arguments : List String) : IO UInt32 := do
  match ← Command.load arguments with
  | .error e => Command.fail e.message
  | .ok config =>
    let here := (← IO.currentDir).toString
    let config := { config with
      source := Command.anchored here config.source
      destination := Command.anchored here config.destination }
    let files ← Command.readFiles config
    let run := App.run 1 config (← Command.readTime? config.source) files
    Command.writeFiles config files run.files
    IO.print (Display.render 0 run.events)
    match run.result with
    | .error e => Command.fail e.message
    | .ok _ => return 0
