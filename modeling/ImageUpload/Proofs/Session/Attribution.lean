import ImageUpload.Proofs.Session.Exact

/-
Which range a failure belongs to.

A failure names its range, and no two ranges have one name, so the table from names to
ranges that the listener looks in, `Plan.byId`, has an entry for each planned range and
answers as a search of the plan does.  A failure that the pool publishes has the name of a
range whose writes have failed, `FailedOn`, so it is found there, and the listener puts
down the range whose writes failed: `Attributed`.
-/

namespace ImageUpload

/-! ## The table of the listener -/

namespace Plan

/-- The ranges of the plan under their names. -/
def byId (p : Plan) : Std.HashMap String ByteRange :=
  .ofList (p.ranges.map fun range => (range.id, range))

variable {p : Plan}

theorem names_apart (h : p.ranges.Nodup) :
    (p.ranges.map fun range => (range.id, range)).Pairwise fun a b => (a.1 == b.1) = false := by
  rw [List.pairwise_map]
  exact h.imp fun hne => beq_false_of_ne fun hid => hne (ByteRange.eq_of_id hid)

theorem size_byId (h : p.ranges.Nodup) : p.byId.size = p.ranges.length := by
  unfold byId
  rw [Std.HashMap.size_ofList (names_apart h), List.length_map]

theorem byId_of_mem (h : p.ranges.Nodup) {range : ByteRange} (hrange : range ∈ p.ranges) :
    p.byId[range.id]? = some range :=
  Std.HashMap.getElem?_ofList_of_mem (beq_self_eq_true range.id) (names_apart h)
    (List.mem_map_of_mem hrange)

/-- A name that no planned range has is not in the table. -/
theorem byId_of_unknown {id : String} (h : ∀ range ∈ p.ranges, range.id ≠ id) :
    p.byId[id]? = none := by
  refine Std.HashMap.getElem?_ofList_of_contains_eq_false ?_
  rw [List.map_map, List.contains_eq_mem, decide_eq_false_iff_not]
  intro hmem
  obtain ⟨range, hrange, hid⟩ := List.mem_map.mp hmem
  exact h range hrange hid

end Plan

namespace Session

variable {σ : Type} {s : Session σ}

/-- A search of the plan and a look into the table come to the same. -/
theorem rangeOf?_eq (h : s.plan.ranges.Nodup) (id : String) : s.rangeOf? id = s.plan.byId[id]? := by
  unfold rangeOf?
  cases hfind : s.plan.ranges.find? (fun range => range.id == id) with
  | none =>
    refine (Plan.byId_of_unknown fun range hrange hid => ?_).symm
    exact List.find?_eq_none.mp hfind range hrange (beq_iff_eq.mpr hid)
  | some range =>
    have hid := List.find?_some hfind
    rw [← eq_of_beq hid, Plan.byId_of_mem h (List.mem_of_find?_eq_some hfind)]

/-! ## Failures -/

variable {J : Float → Prop} {retry : RetryPolicy} {c : Chunk} {attempt : Nat}
  {result : Except WriteFault Unit}

/-- After an attempt that calls for another one its write has failed. -/
theorem fault_of_repeats (h : (requestOf retry c).Repeats attempt (outcomeOf result)) :
    ∃ fault, result = .error fault := by
  obtain ⟨e, he, -⟩ := h
  cases result with
  | ok _ => exact nomatch he
  | error fault => exact ⟨fault, rfl⟩

/-- A request that failed for good did so with the fault of its last write, be it an error, a
panic, or an error after which the pool was torn down. -/
theorem fault_of_ends {cancelled : Bool} {e : AttemptError StorageError}
    (h : (requestOf retry c).Ends J cancelled attempt (outcomeOf result) (.failed e)) :
    ∃ fault, result = .error fault ∧ e = fault.toAttempt := by
  cases result with
  | ok _ => exact nomatch h
  | error fault =>
    refine ⟨fault, rfl, ?_⟩
    cases fault with
    | failed e' =>
      cases h with
      | final e' hretries => rfl
      | exhausted e' hretries hallows => rfl
      | abandoned e' hrepeats hcancelled => rfl
    | panicked text =>
      cases h with
      | panicked text => rfl

/-- The failure is that of this range: so many writes of the range have failed, and the last
one of them with this error. -/
structure FailedOn (s : Session σ) (f : Failure StorageError) (range : ByteRange) : Prop where
  name : f.id = range.id
  attempts : (s.writesOf range).length = f.attempts
  failed : ∀ w ∈ s.writesOf range, ∃ fault, w.result = .error fault
  last : ∃ w fault, (s.writesOf range).getLast? = some w ∧ w.result = .error fault ∧
    f.error = fault.toAttempt

variable [PageStore σ] {r : Reader} {store₀ : σ}

/-- Whatever the pool publishes is the failure of a planned range. -/
theorem Invariant.failedOn (h : s.Invariant J r store₀) (hnodup : s.plan.ranges.Nodup)
    {f : Failure StorageError} (hf : f ∈ s.pool.failures) :
    ∃ range ∈ s.plan.ranges, s.FailedOn f range := by
  obtain ⟨desks, haccounts⟩ := h.accounts
  obtain ⟨d, hd, hfd⟩ := List.mem_flatMap.mp (haccounts.failures.mem_iff.mp hf)
  obtain ⟨x, hx, hfailure⟩ := List.mem_filterMap.mp hfd
  obtain ⟨range, hrange, -, hrequest⟩ :=
    range_of_jobs haccounts hd (List.mem_append_right _ (List.mem_map_of_mem hx))
  obtain ⟨before, o, houtcomes, hattempts, htried, hends⟩ := haccounts.settled d hd x hx
  obtain ⟨e, hfate, rfl⟩ := Settlement.failure?_eq_some hfailure
  rw [hrequest] at htried hends
  rw [hfate] at hends
  -- the attempts at the ticket are the writes of its range
  rw [h.outcomes_eq hnodup hrange] at houtcomes
  obtain ⟨earlier, final, hwrites, hearlier, hfinal⟩ := List.map_eq_append_iff.mp houtcomes
  obtain ⟨w, rfl, rfl⟩ := List.map_eq_singleton_iff.mp hfinal
  obtain ⟨fault, hresult, rfl⟩ := fault_of_ends hends
  refine ⟨range, List.mem_of_getElem? hrange, ?_⟩
  constructor
  · rw [hrequest]
    rfl
  · rw [hwrites, List.length_append, ← hattempts, ← hearlier, List.length_map]
    rfl
  · intro w' hw'
    rw [hwrites] at hw'
    rcases List.mem_append.mp hw' with hw' | hw'
    · obtain ⟨i, hi⟩ := List.mem_iff_getElem?.mp hw'
      refine fault_of_repeats (htried i (outcomeOf w'.result) ?_)
      rw [← hearlier, List.getElem?_map, hi]
      rfl
    · rw [List.mem_singleton.mp hw']
      exact ⟨fault, hresult⟩
  · refine ⟨w, fault, ?_, hresult, rfl⟩
    rw [hwrites, List.getLast?_concat]

/-! ## What the listener puts down -/

/-- Every failure belongs to the planned range whose writes failed, and is found under its name. -/
structure Attributed (s : Session σ) : Prop where
  entries : s.plan.byId.size = s.plan.ranges.length
  found : ∀ range ∈ s.plan.ranges, s.plan.byId[range.id]? = some range
  lookup : ∀ id, s.rangeOf? id = s.plan.byId[id]?
  known : ∀ f ∈ s.pool.failures, ∃ range ∈ s.plan.ranges,
    s.plan.byId[f.id]? = some range ∧ s.FailedOn f range
  recorded : List.Forall₂ (fun f x => s.FailedOn f x.range ∧ x.attempts = f.attempts ∧
    x.error = f.error.message StorageError.message) (s.pool.failures.take s.heard) s.failed

theorem forall₂_filterMap {α β : Type} {R : α → β → Prop} {f : α → Option β} {l : List α}
    (h : ∀ a ∈ l, ∃ b, f a = some b ∧ R a b) : List.Forall₂ R l (l.filterMap f) := by
  induction l with
  | nil => exact .nil
  | cons a rest ih =>
    obtain ⟨⟨b, hb, hab⟩, hrest⟩ := List.forall_mem_cons.mp h
    rw [List.filterMap_cons_some hb]
    exact .cons hab (ih hrest)

theorem Invariant.attributed (h : s.Invariant J r store₀) (hnodup : s.plan.ranges.Nodup) :
    s.Attributed := by
  have hfound : ∀ range ∈ s.plan.ranges, s.plan.byId[range.id]? = some range :=
    fun range hrange => Plan.byId_of_mem hnodup hrange
  constructor
  · exact Plan.size_byId hnodup
  · exact hfound
  · exact rangeOf?_eq hnodup
  · intro f hf
    obtain ⟨range, hrange, hon⟩ := h.failedOn hnodup hf
    exact ⟨range, hrange, hon.name ▸ hfound range hrange, hon⟩
  · rw [h.heard.failed]
    refine forall₂_filterMap fun f hf => ?_
    obtain ⟨range, hrange, hon⟩ := h.failedOn hnodup (List.mem_of_mem_take hf)
    refine ⟨⟨range, f.attempts, f.error.message StorageError.message⟩, ?_, hon, rfl, rfl⟩
    unfold failedRange?
    rw [hon.name, rangeOf?_id hrange]
    rfl

end Session

namespace Upload

variable {σ : Type} [PageStore σ]

/-- No two ranges have one name and no plan has a range twice.  So at every moment of every
session, whatever fails, panics or is torn down, the listener knows every failure that the
pool publishes, and each of its entries is about the range whose writes failed. -/
theorem failures_attributed {options : UploadOptions} {parallelism : Option Nat} {source : Source}
    {present : RangeSet} {store : σ} {p : Plan} {r : Reader} {actions : List SessionAction}
    {s : Session σ} (hsize : source.size < 2 ^ 64) (hpresent : present.Canonical)
    (hplan : plan options source present store = (.ok p, r))
    (hrun : (Session.start options (workers options parallelism) p r store).run actions = some s) :
    (∀ a b : ByteRange, a.id = b.id → a = b) ∧
      (∀ (reader reader' : Reader) (l : Layout) (has : RangeSet) (q : Plan),
        reader.source.size < 2 ^ 64 → has.Canonical → reader.reconcile l has = (.ok q, reader') →
          q.ranges.Nodup) ∧
      s.plan = p ∧ s.Attributed := by
  have hJ : ∀ a ∈ actions, Session.Draws (fun _ => True) a := fun a _ => Session.draws_true a
  obtain ⟨hserves, -⟩ := plan_ok (Nat.le_of_lt hsize) hpresent hplan
  obtain ⟨hp, -⟩ := Session.constants_run hJ hrun
  refine ⟨fun _ _ => ByteRange.eq_of_id, ?_, hp, ?_⟩
  · intro reader reader' l has q hq hhas hreconcile
    exact (Reader.reconcile_ok (Nat.le_of_lt hq) hhas hreconcile).nodup
  · exact (Session.invariant_run hJ hrun).attributed (hp ▸ hserves.nodup)

/-- Two bytes.  Writing the first one always fails, and writing the second one panics. -/
def faultyStore : DisturbedStore MemoryStore :=
  .around ((MemoryStore.empty 1 1).create 2 .empty).2
    { write := fun range _ =>
        if range.first = 0 then .fails false (.io "away") else .panics false "torn" }

/-- While the first byte waits for its second attempt the second byte fails for good.  The
failures come in the order in which they happen, and each goes to its own byte. -/
theorem failures_attributed_crosswise :
    let first : ByteRange := ⟨0, 0, by decide, by decide⟩
    let second : ByteRange := ⟨1, 1, by decide, by decide⟩
    let planned := plan twiceOptions (.ofBytes ⟨#[1, 2]⟩) .empty faultyStore
    planned = (.ok ⟨2, [first, second]⟩, planned.2) ∧
      ∃ actions s,
        (Session.start twiceOptions 2 ⟨2, [first, second]⟩ planned.2 faultyStore).run actions =
          some s ∧
        s.failed = [⟨second, 1, "attempt panicked: torn"⟩, ⟨first, 2, "I/O error: away"⟩] ∧
        s.Attributed := by
  intro first second planned
  have hplanned : planned.1.toOption.map (fun p => (p.size, p.ranges)) =
      some (2, [first, second]) := by decide +kernel
  have hfailed : ((Session.start twiceOptions 2 ⟨2, [first, second]⟩ planned.2 faultyStore).run
      [.read, .offer, .receive, .send, .take 0, .read, .offer, .receive, .send, .take 1,
        .write 0 1, .write 1 1, .wake 0, .write 0 1, .hear, .hear]).map Session.failed =
      some [⟨second, 1, "attempt panicked: torn"⟩, ⟨first, 2, "I/O error: away"⟩] := by
    decide +kernel
  have hplan : plan twiceOptions (.ofBytes ⟨#[1, 2]⟩) .empty faultyStore = planned := rfl
  clear_value planned
  have hp := eq_of_planned hplanned
  rw [hp] at hplan
  obtain ⟨s, hrun, hlist⟩ := Option.map_eq_some_iff.mp hfailed
  have hrun' : (Session.start twiceOptions (workers twiceOptions (some 2)) ⟨2, [first, second]⟩
      planned.2 faultyStore).run _ = some s := hrun
  obtain ⟨-, -, -, hattributed⟩ :=
    failures_attributed (by decide) RangeSet.canonical_empty hplan hrun'
  exact ⟨hp, _, s, hrun, hlist, hattributed⟩

end Upload
end ImageUpload
