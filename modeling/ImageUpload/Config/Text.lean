import ImageUpload.Config.Basic
import ImageUpload.Toml.Document

/-!
Settings as a file.  Every setting may be missing but must be of its kind, and what is
not a setting is ignored.
-/

namespace ImageUpload

open Toml (Document Scalar)

inductive ConfigError where
  | unreadable
  | malformed
  | invalid (f : ConfigFault)
  deriving DecidableEq

namespace ConfigError

def message : ConfigError → String
  | unreadable => "the settings cannot be read"
  | malformed => "the settings cannot be parsed"
  | invalid f => f.message

end ConfigError

namespace Config

/-- A setting of a kind, or its default. -/
def setting? {α : Type} (d : Document) (key : String) (read : Scalar → Option α)
    (dflt : α) : Option α :=
  if d.hasTable key then none
  else
    match d.get? key with
    | none => some dflt
    | some v => read v

def text? : Scalar → Option String
  | .text s => some s
  | _ => none

def boolean? : Scalar → Option Bool
  | .boolean b => some b
  | _ => none

/-- A number from zero up to, and without, `bound`. -/
def natural? (bound : Nat) : Scalar → Option Nat
  | .integer n => if 0 ≤ n ∧ n < bound then some n.toNat else none
  | _ => none

def ofDocument? (d : Document) : Option Config := do
  return {
    source := ← setting? d "source" text? standard.source
    destination := ← setting? d "destination" text? standard.destination
    objectName := ← setting? d "object_name" (fun v => (text? v).map some) none
    parallelism := ← setting? d "parallelism" (fun v => (natural? (2 ^ 64) v).map some) none
    overwrite := ← setting? d "overwrite" boolean? standard.overwrite
    pageSize := ← setting? d "page_size" (natural? (2 ^ 64)) standard.pageSize
    chunkSize := ← setting? d "chunk_size" (natural? (2 ^ 64)) standard.chunkSize
    maxAttempts := ← setting? d "max_attempts" (natural? (2 ^ 32)) standard.maxAttempts
    interval := ← setting? d "progress_interval_ms" (natural? (2 ^ 64)) standard.interval }

def read (file : ByteArray) : Except ConfigError Config :=
  match String.fromUTF8? file with
  | none => .error .unreadable
  | some text =>
    match (Document.ofString? text).bind ofDocument? with
    | none => .error .malformed
    | some c => .ok c

def validate (c : Config) : Except ConfigError Config :=
  match c.fault? with
  | some f => .error (.invalid f)
  | none => .ok c

def load (file : Option ByteArray) : Except ConfigError Config :=
  match file with
  | none => .error .unreadable
  | some bytes => (read bytes).bind validate

def line (key value : String) : String :=
  key ++ " = " ++ value ++ "\n"

/-- A number must fit an integer of the file. -/
def numberLine? (key : String) (n : Nat) : Option String :=
  if n < 2 ^ 63 then some (line key (toString n)) else none

/-- The settings as a file, or nothing if a number is too large for one. -/
def save? (c : Config) : Option String := do
  let parallelism ← match c.parallelism with
    | none => some ""
    | some n => numberLine? "parallelism" n
  return line "source" (Toml.Quoted.write c.source) ++
    line "destination" (Toml.Quoted.write c.destination) ++
    (match c.objectName with
      | none => ""
      | some name => line "object_name" (Toml.Quoted.write name)) ++
    parallelism ++
    line "overwrite" (if c.overwrite then "true" else "false") ++
    (← numberLine? "page_size" c.pageSize) ++ (← numberLine? "chunk_size" c.chunkSize) ++
    (← numberLine? "max_attempts" c.maxAttempts) ++
    (← numberLine? "progress_interval_ms" c.interval)

/-- The settings of the default file, and that file afterwards.  A missing file is
created to be edited. -/
def loadDefault (file : Option ByteArray) : Except ConfigError Config × Option ByteArray :=
  match file with
  | some bytes => (load (some bytes), some bytes)
  | none => (standard.validate, standard.save?.map String.toUTF8)

def defaultDirectory : String := ".config/pagesync"

def defaultPath : String := defaultDirectory ++ "/pagesync.toml"

end Config
end ImageUpload
