import ImageUpload.Proofs.Store.Memory
import ImageUpload.Store.Disturbed

/-
A disturbed store and the store in it.

A call of a disturbed store is a call of the store in it or no call at all, and an answer
that is no error is the answer of that store.
-/

namespace ImageUpload
namespace DisturbedStore

section

variable {σ : Type}

/-- A call that is answered comes from the store within. -/
theorem relay_cases {α : Type} {s s' : DisturbedStore σ} {call : StoreCall}
    {e : Option StorageError} {answer : σ → Except StorageError α × σ}
    {result : Except StorageError α} (h : s.relay call e answer = (result, s')) :
    (s'.inner = s.inner ∧ ∃ e, result = .error e) ∨ answer s.inner = (result, s'.inner) := by
  simp only [relay] at h
  split at h
  next e =>
    injection h with hr hs
    exact .inl ⟨hs ▸ rfl, e, hr.symm⟩
  next =>
    injection h with hr hs
    exact .inr (by rw [← hr, ← hs])

variable [PageStore σ]

/-- A write changes nothing, or it is a write of the store within.  If it is acknowledged,
that store has acknowledged it. -/
theorem write_cases {s s' : DisturbedStore σ} {range : ByteRange} {data : ByteArray}
    {result : Except WriteFault Unit} (h : s.write range data = (result, s')) :
    (s'.inner = s.inner ∧ result ≠ .ok ()) ∨
      ∃ answer, PageStore.write s.inner range data = (answer, s'.inner) ∧
        (result = .ok () → answer = .ok ()) := by
  simp only [write] at h
  split at h
  next =>
    injection h with hr hs
    exact .inr ⟨_, by rw [← hs], fun hok => hr.trans hok⟩
  next applied e _ =>
    injection h with hr hs
    cases applied with
    | true => exact .inr ⟨_, by rw [← hs]; rfl, fun hok => nomatch hr.trans hok⟩
    | false => exact .inl ⟨by rw [← hs]; rfl, hr ▸ nofun⟩
  next applied text _ =>
    injection h with hr hs
    cases applied with
    | true => exact .inr ⟨_, by rw [← hs]; rfl, fun hok => nomatch hr.trans hok⟩
    | false => exact .inl ⟨by rw [← hs]; rfl, hr ▸ nofun⟩

end

theorem properties_ok {s : DisturbedStore MemoryStore} {found : Option ObjectProperties}
    (h : PageStore.properties s = .ok found) : found = s.inner.properties := by
  simp only [PageStore.properties] at h
  split at h
  next _ => exact nomatch h
  next _ =>
    injection h with h
    exact h.symm

/-! ## The answers to writes -/

end DisturbedStore

/-- The answer to a write that would be done if it passed. -/
def Interference.answer : Interference → Except WriteFault Unit
  | passes => .ok ()
  | fails _ e => .error (.failed e)
  | panics _ text => .error (.panicked text)

namespace DisturbedStore

/-- The store within has an object of this size. -/
def Sized (s : DisturbedStore MemoryStore) (n : Nat) : Prop :=
  ∃ o, s.inner.object = some o ∧ o.data.size = n

theorem attempts_concat {s s' : DisturbedStore MemoryStore} {range : ByteRange} {data : ByteArray}
    (h : s'.calls = s.calls ++ [.write range data]) (range' : ByteRange) :
    s'.attempts range' = s.attempts range' + if range = range' then 1 else 0 := by
  unfold attempts
  rw [h, List.countP_append, List.countP_singleton]
  simp only [StoreCall.writes, decide_eq_true_eq]

/-- A write that fits the object is answered as the disturbance says of this attempt. -/
theorem write_fits {s s' : DisturbedStore MemoryStore} {n : Nat} {range : ByteRange}
    {data : ByteArray} {result : Except WriteFault Unit} (hsized : s.Sized n)
    (hfits : PageStore.refusal? s.inner.page n range data = none)
    (h : s.write range data = (result, s')) :
    result = (s.disturbance.write range (s.attempts range + 1)).answer ∧ s'.Sized n ∧
      s'.disturbance = s.disturbance ∧ s'.inner.page = s.inner.page ∧
      s'.calls = s.calls ++ [.write range data] := by
  obtain ⟨o, ho, rfl⟩ := hsized
  obtain ⟨m', o', hm', hpage, ho', hsize⟩ := MemoryStore.write_fits ho hfits
  have hattempts : ({ s with calls := s.calls ++ [StoreCall.write range data] } :
      DisturbedStore MemoryStore).attempts range = s.attempts range + 1 := by
    rw [attempts_concat (s := s) rfl, if_pos rfl]
  have hinner : PageStore.write s.inner range data = (.ok (), m') := hm'
  simp only [write, hattempts, hinner] at h
  split at h
  next hpasses =>
    injection h with hr hs
    rw [hpasses, ← hs]
    exact ⟨hr.symm, ⟨o', ho', hsize⟩, rfl, hpage, rfl⟩
  next applied e hfails =>
    injection h with hr hs
    rw [hfails, ← hs]
    cases applied with
    | true => exact ⟨hr.symm, ⟨o', ho', hsize⟩, rfl, hpage, rfl⟩
    | false => exact ⟨hr.symm, ⟨o, ho, rfl⟩, rfl, rfl, rfl⟩
  next applied text hpanics =>
    injection h with hr hs
    rw [hpanics, ← hs]
    cases applied with
    | true => exact ⟨hr.symm, ⟨o', ho', hsize⟩, rfl, hpage, rfl⟩
    | false => exact ⟨hr.symm, ⟨o, ho, rfl⟩, rfl, rfl, rfl⟩

/-! ## The listing of a store in memory -/

theorem list_memory {s s' : DisturbedStore MemoryStore} {marker : Option String}
    {result : Except StorageError Listing} (h : PageStore.list s marker = (result, s')) :
    s'.inner = s.inner ∧ ∀ l, result = .ok l → s.inner.list marker = .ok l := by
  rcases relay_cases h with ⟨hinner, e, he⟩ | hanswer
  · exact ⟨hinner, fun l hl => nomatch he.symm.trans hl⟩
  · have hpair : (s.inner.list marker, s.inner) = (result, s'.inner) := hanswer
    injection hpair with hr hs
    exact ⟨hs.symm, fun l hl => hr.trans hl⟩

theorem listFrom_inner (parts : Nat) (marker : Option String) (known : RangeSet)
    (s : DisturbedStore MemoryStore) :
    (PageStore.listFrom parts marker known s).2.inner = s.inner := by
  induction parts generalizing marker known s with
  | zero => rfl
  | succ parts ih =>
    rw [PageStore.listFrom]
    split
    next e s' h => exact (list_memory h).1
    next l s' h =>
      have hinner := (list_memory h).1
      simp only
      split
      next => exact hinner
      next next _ =>
        split
        next => exact hinner
        next => exact (ih _ _ _).trans hinner

/-- A listing that comes to its end adds all runs from its marker on. -/
theorem listFrom_ok {parts : Nat} {marker : Option String} {known present : RangeSet}
    {s s' : DisturbedStore MemoryStore} {start : Nat}
    (hstart : ∀ n, MemoryStore.startOf marker = .ok n → n = start)
    (h : PageStore.listFrom parts marker known s = (.ok present, s')) :
    ∃ o, s.inner.object = some o ∧
      present = (o.written.ranges.drop start).foldl RangeSet.insert known := by
  induction parts generalizing marker known s start with
  | zero => cases (Prod.mk.inj h).1
  | succ parts ih =>
    rw [PageStore.listFrom] at h
    split at h
    next => cases (Prod.mk.inj h).1
    next l s₁ hlist =>
      obtain ⟨hinner, hok⟩ := list_memory hlist
      obtain ⟨o, start', ho, hstart', hcases⟩ := MemoryStore.list_ok (hok l rfl)
      rw [hstart start' hstart'] at hcases
      refine ⟨o, ho, ?_⟩
      simp only at h
      rcases hcases with ⟨hnext, hranges⟩ | ⟨stop, -, hnext, hranges⟩
      · rw [hnext] at h
        injection h with h _
        injection h with h
        rw [← h, hranges]
      · rw [hnext] at h
        simp only [if_neg (MemoryStore.toString_ne_empty stop)] at h
        obtain ⟨o', ho', hpresent⟩ := ih (fun n hn => MemoryStore.startOf_toString hn) h
        rw [hinner, ho] at ho'
        injection ho' with ho'
        rw [hpresent, ← ho', ← hranges, List.foldl_append]

/-- All that is listed is the written set. -/
theorem listAll_ok {s s' : DisturbedStore MemoryStore} {present : RangeSet}
    (hcanonical : s.inner.written.Canonical) (h : PageStore.listAll s = (.ok present, s')) :
    present = s.inner.written := by
  have hstart : ∀ n, MemoryStore.startOf none = .ok n → n = 0 := by
    intro n hn
    injection hn with hn
    exact hn.symm
  obtain ⟨o, ho, hpresent⟩ := listFrom_ok hstart h
  rw [MemoryStore.written_eq ho] at hcanonical ⊢
  rw [hpresent, List.drop_zero]
  exact RangeSet.foldl_insert_ranges hcanonical

end DisturbedStore
end ImageUpload
