import ImageUpload.Layout
import ImageUpload.Retry

namespace ImageUpload

structure UploadOptions where
  parallelism : Nat
  queueCapacity : Nat
  layout : Layout
  retry : RetryPolicy
  /-- The time between two progress records. -/
  interval : Duration
  /-- How many samples the throughput is measured over. -/
  window : Nat

namespace UploadOptions

def standard (parallelism : Nat) : UploadOptions :=
  ⟨parallelism, 0, .standard, .standard, .ofMillis 500, 60⟩

end UploadOptions
end ImageUpload
