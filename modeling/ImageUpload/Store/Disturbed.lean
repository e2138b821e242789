import ImageUpload.Store.Basic

/-!
A store behind a layer that disturbs its calls: any call may be answered with an error
in its place, and a write may also panic.  A disturbed write may have been applied all
the same.
-/

namespace ImageUpload

inductive Interference where
  | passes
  | fails (applied : Bool) (e : StorageError)
  | panics (applied : Bool) (text : String)

/-- The errors in place of answers, and what happens to the attempts at writing each
range, counted from one. -/
structure Disturbance where
  properties : Option StorageError := none
  create : Option StorageError := none
  list : Option StorageError := none
  contentHash : Option StorageError := none
  write : ByteRange → (attempt : Nat) → Interference := fun _ _ => .passes

/-- A call that may change a store, or a call for a listing. -/
inductive StoreCall where
  | create (size : Nat) (metadata : MetadataMap)
  | list (marker : Option String)
  | write (range : ByteRange) (data : ByteArray)
  | setContentHash (hash : String)

namespace StoreCall

def writes (range : ByteRange) : StoreCall → Bool
  | write r _ => decide (r = range)
  | _ => false

end StoreCall

structure DisturbedStore (σ : Type) where
  inner : σ
  disturbance : Disturbance
  /-- Every call so far. -/
  calls : List StoreCall

namespace DisturbedStore

variable {σ : Type}

def around (inner : σ) (disturbance : Disturbance) : DisturbedStore σ :=
  ⟨inner, disturbance, []⟩

/-- Answer a call with the error, or let the inner store answer. -/
def relay {α : Type} (s : DisturbedStore σ) (call : StoreCall) (e : Option StorageError)
    (answer : σ → Except StorageError α × σ) : Except StorageError α × DisturbedStore σ :=
  let s := { s with calls := s.calls ++ [call] }
  match e with
  | some e => (.error e, s)
  | none =>
    let (result, inner) := answer s.inner
    (result, { s with inner := inner })

def attempts (s : DisturbedStore σ) (range : ByteRange) : Nat :=
  s.calls.countP (StoreCall.writes range)

variable [PageStore σ]

def write (s : DisturbedStore σ) (range : ByteRange) (data : ByteArray) :
    Except WriteFault Unit × DisturbedStore σ :=
  let s := { s with calls := s.calls ++ [StoreCall.write range data] }
  let (answer, written) := PageStore.write s.inner range data
  match s.disturbance.write range (s.attempts range) with
  | .passes => (answer, { s with inner := written })
  | .fails applied e =>
    (.error (.failed e), { s with inner := if applied then written else s.inner })
  | .panics applied text =>
    (.error (.panicked text), { s with inner := if applied then written else s.inner })

instance : PageStore (DisturbedStore σ) where
  pageSize s := PageStore.pageSize s.inner
  properties s :=
    match s.disturbance.properties with
    | some e => .error e
    | none => PageStore.properties s.inner
  create s size metadata :=
    s.relay (.create size metadata) s.disturbance.create fun t =>
      PageStore.create t size metadata
  list s marker :=
    s.relay (.list marker) s.disturbance.list fun t => PageStore.list t marker
  write := write
  setContentHash s hash :=
    s.relay (.setContentHash hash) s.disturbance.contentHash fun t =>
      PageStore.setContentHash t hash
  listingBound s := PageStore.listingBound s.inner

end DisturbedStore
end ImageUpload
