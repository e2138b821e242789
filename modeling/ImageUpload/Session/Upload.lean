import ImageUpload.Session.Schedule

namespace ImageUpload

structure UploadRun (σ : Type) where
  result : Except UploadError SessionResult
  /-- The events that the consumer has taken, or can still take. -/
  events : List UploadEvent
  writes : List WriteRecord
  store : σ

namespace UploadRun

variable {σ : Type}

def refused (e : UploadError) (store : σ) : UploadRun σ :=
  ⟨.error e, [], [], store⟩

def ofSession (s : Session σ) : UploadRun σ :=
  ⟨s.result?.getD (.error .panicked), s.taken ++ s.waiting, s.writes, s.store⟩

end UploadRun

namespace Upload

variable {σ : Type} [PageStore σ]

/-- The number of workers: what the caller asks for, or what the options say, and at
least one. -/
def workers (options : UploadOptions) (parallelism : Option Nat) : Nat :=
  max 1 (parallelism.getD options.parallelism)

/-- The pages are those of the store, whatever the options say. -/
def layoutFor (options : UploadOptions) (store : σ) : Layout :=
  ⟨PageStore.pageSize store, options.layout.chunk⟩

/-- Plan the session, or say why there is none. -/
def plan (options : UploadOptions) (source : Source) (present : RangeSet) (store : σ) :
    Except UploadError Plan × Reader :=
  match (Reader.ofSource source).reconcile (layoutFor options store) present with
  | (.error (.failed e), r) => (.error (.ofTransfer e), r)
  | (.error .panicked, r) => (.error .panicked, r)
  | (.ok p, r) => (.ok p, r)

/-- Send what the store does not have.  Without `resume` that is the whole image, whatever
is said to be present.  `drive` takes the session from its start to its end. -/
def runBy (drive : Session σ → Session σ) (options : UploadOptions) (parallelism : Option Nat)
    (source : Source) (present : RangeSet) (resume : Bool) (store : σ) : UploadRun σ :=
  match plan options source (if resume then present else .empty) store with
  | (.error e, _) => .refused e store
  | (.ok p, r) => .ofSession (drive (Session.start options (workers options parallelism) p r store))

def run (options : UploadOptions) (watched : Bool) (parallelism : Option Nat) (source : Source)
    (present : RangeSet) (resume : Bool) (store : σ) : UploadRun σ :=
  runBy (Session.complete watched) options parallelism source present resume store

end Upload
end ImageUpload
