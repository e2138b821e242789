import ImageUpload.Disk.Path
import ImageUpload.Layout
import ImageUpload.Session.Options

namespace ImageUpload

structure Config where
  /-- The image. -/
  source : String
  /-- The directory that holds the object. -/
  destination : String
  objectName : Option String
  parallelism : Option Nat
  overwrite : Bool
  pageSize : Nat
  chunkSize : Nat
  /-- How often a range is tried.  Zero sets no limit. -/
  maxAttempts : Nat
  /-- The milliseconds between two progress records. -/
  interval : Nat
  deriving DecidableEq

inductive ConfigFault where
  | noSource
  | noPage
  | noChunk
  deriving DecidableEq

namespace ConfigFault

def message : ConfigFault → String
  | noSource => "no source image configured"
  | noPage => "page_size must be greater than zero"
  | noChunk => "chunk_size must be greater than zero"

end ConfigFault

namespace Config

def standard : Config :=
  { source := ""
    destination := "."
    objectName := none
    parallelism := none
    overwrite := false
    pageSize := Layout.defaultPage
    chunkSize := Layout.defaultChunk
    maxAttempts := 5
    interval := 500 }

def fault? (c : Config) : Option ConfigFault :=
  if c.source = "" then some .noSource
  else if c.pageSize = 0 then some .noPage
  else if c.chunkSize = 0 then some .noChunk
  else none

def imageSuffix : String := ".img"

/-- The name of the object always has the suffix of an image. -/
def object (c : Config) : String :=
  let name := c.objectName.getD ((Path.lastName? (Path.names c.source)).getD "")
  if imageSuffix.toList.isSuffixOf name.toList then name else name ++ imageSuffix

/-- Without a number of workers there are eight for each processor. -/
def workers (c : Config) (processors : Nat) : Nat :=
  match c.parallelism with
  | some n => max 1 n
  | none => 8 * processors

def uploadOptions (c : Config) (processors : Nat) : UploadOptions :=
  let base := UploadOptions.standard (c.workers processors)
  { base with
    layout := ⟨c.pageSize, c.chunkSize⟩
    interval := .ofMillis (max 1 c.interval)
    retry := { base.retry with
      maxAttempts := if c.maxAttempts = 0 then none else some c.maxAttempts } }

end Config
end ImageUpload
