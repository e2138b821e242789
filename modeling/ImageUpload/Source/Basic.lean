import ImageUpload.Range.Basic

/-!
Source images.  A source is the bytes it holds together with the way it answers
calls: any seek or read may fail or panic, a read may be interrupted, and a read
may return fewer bytes than asked for.  Calls are numbered from zero over the
whole life of the source.  Bytes are read into a buffer, for which there may be no
room.
-/

namespace ImageUpload

inductive Reply where
  | ready
  | failed (reason : String)
  | panicked
  deriving DecidableEq

/-- A source image.  The interrupted reads are a list, so that a read which is
tried again after each interruption comes to an end. -/
structure Source where
  bytes : ByteArray
  /-- The size the source reports, which need not be the number of its bytes. -/
  size : Nat
  onSeek : Nat → Reply := fun _ => .ready
  onRead : Nat → Reply := fun _ => .ready
  /-- The most bytes that a read returns. -/
  limit : Nat → Option Nat := fun _ => none
  interrupted : List Nat := []
  /-- Whether a buffer of so many bytes can be had. -/
  room : Nat → Bool := Word.allocatable

namespace Source

def ofBytes (bytes : ByteArray) : Source :=
  { bytes, size := bytes.size }

end Source

/-- An open source: where it stands and how often it has been called. -/
structure Reader where
  source : Source
  position : Nat
  seeks : Nat
  reads : Nat

inductive ReadResult where
  | bytes (b : ByteArray)
  | interrupted
  | failed (reason : String)
  | panicked

namespace Reader

def ofSource (s : Source) : Reader :=
  ⟨s, 0, 0, 0⟩

/-- Move to an offset, which may lie past the end. -/
def seek (r : Reader) (offset : Nat) : Reply × Reader :=
  match r.source.onSeek r.seeks with
  | .ready => (.ready, { r with position := offset, seeks := r.seeks + 1 })
  | reply => (reply, { r with seeks := r.seeks + 1 })

/-- Read at most `want` bytes.  At the end of the source there are none. -/
def read (r : Reader) (want : Nat) : ReadResult × Reader :=
  let next := { r with reads := r.reads + 1 }
  if r.source.interrupted.contains r.reads then (.interrupted, next)
  else
    match r.source.onRead r.reads with
    | .panicked => (.panicked, next)
    | .failed reason => (.failed reason, next)
    | .ready =>
      let most := match r.source.limit r.reads with
        | some limit => min want limit
        | none => want
      let b := r.source.bytes.extract r.position (r.position + most)
      (.bytes b, { next with position := r.position + b.size })

end Reader
end ImageUpload
