import ImageUpload.Time.Duration

namespace ImageUpload

structure ProgressRecord where
  /-- Bytes that are known to be in place, transferred or not. -/
  processed : Nat
  total : Nat
  percent : Float
  bytesPerSecond : Float
  /-- `none` when the throughput gives no finite estimate. -/
  remaining : Option Duration

namespace ProgressRecord

def percentOf (processed total : Nat) : Float :=
  if total = 0 then 100
  else
    let p := wordToFloat processed / wordToFloat total * 100
    if p < 100 then p else 100

def remainingAt (left : Nat) (bytesPerSecond : Float) : Option Duration :=
  if left = 0 then some .zero
  else if 0 < bytesPerSecond then Duration.ofSeconds? (wordToFloat left / bytesPerSecond)
  else none

def compute (processed total : Nat) (bytesPerSecond : Float) : ProgressRecord :=
  ⟨processed, total, percentOf processed total, bytesPerSecond,
    remainingAt (total - processed) bytesPerSecond⟩

/-- What is known of a session whose estimator died. -/
def unknown : ProgressRecord :=
  compute 0 0 0

def megabitsPerSecond (r : ProgressRecord) : Float :=
  r.bytesPerSecond * 8 / 1000000

end ProgressRecord
end ImageUpload
