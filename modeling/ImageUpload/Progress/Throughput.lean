import ImageUpload.Progress.Ring
import ImageUpload.Time.Duration

namespace ImageUpload

/-- A running count of bytes and the time, in nanoseconds, at which it was taken. -/
structure Sample where
  cumulative : Nat
  time : Nat

structure Throughput where
  samples : Ring Sample

namespace Throughput

/-- A throughput is measured between two samples, so the window holds at least
two. -/
def ofWindow (window : Nat) : Throughput :=
  ⟨Ring.empty (max 2 window)⟩

def add (t : Throughput) (cumulative time : Nat) : Throughput :=
  ⟨t.samples.push ⟨cumulative, time⟩⟩

/-- Bytes per second between two samples.  It is zero when no time lies between
them, and a count that goes down counts as no bytes. -/
def between (oldest newest : Sample) : Float :=
  let elapsed : Duration := ⟨newest.time - oldest.time⟩
  if elapsed.nanos = 0 then 0
  else wordToFloat (newest.cumulative - oldest.cumulative) / elapsed.toSeconds

def bytesPerSecond (t : Throughput) : Float :=
  if t.samples.size < 2 then 0
  else
    match t.samples.first?, t.samples.last? with
    | some oldest, some newest => between oldest newest
    | _, _ => 0

end Throughput
end ImageUpload
