import ImageUpload.Proofs.Session.Ledger
import ImageUpload.Session.Upload
import ImageUpload.Store.Memory

/-
What a session that claims success has written.

Every range whose request was queued has been acknowledged, `acknowledged_of_sent`, and
every range of the plan was queued if the producer had no more to read.  A producer that
panicked is taken for one that had no more to read, though, so success means that the plan
is written exactly if reading it does not panic: `acknowledged_iff_of_success`.
-/

namespace ImageUpload
namespace Session

variable {σ : Type} [PageStore σ] {J : Float → Prop} {s : Session σ} {r : Reader} {store₀ : σ}

/-- The store has acknowledged a write of exactly this range. -/
def Acknowledged (s : Session σ) (range : ByteRange) : Prop :=
  ∃ w ∈ s.writes, w.chunk.range = range ∧ w.result = .ok ()

/-- The session returned with success, or has told so. -/
def ClaimsSuccess (s : Session σ) : Prop :=
  (∃ result, s.result? = some (.ok result) ∧ result.success = true) ∨
    ∃ bytes percent, .finished .completed bytes percent ∈ s.taken ++ s.waiting

theorem exists_related {α β : Type} {R : α → β → Prop} {l : List α} {m : List β}
    (h : List.Forall₂ R l m) {a : α} (ha : a ∈ l) : ∃ b ∈ m, R a b := by
  induction h with
  | nil => exact nomatch ha
  | cons hab hrest ih =>
    rcases List.mem_cons.mp ha with rfl | ha
    · exact ⟨_, List.mem_cons_self, hab⟩
    · obtain ⟨b, hb, hr⟩ := ih ha
      exact ⟨b, List.mem_cons_of_mem _ hb, hr⟩

theorem Invariant.mem_sent_of_write (h : s.Invariant J r store₀) {w : WriteRecord}
    (hw : w ∈ s.writes) : w.chunk ∈ s.sent r := by
  obtain ⟨e, -, hchunk, -⟩ := exists_related h.written.flip hw
  exact List.mem_of_getElem? hchunk

theorem Invariant.range_mem_of_write (h : s.Invariant J r store₀) {w : WriteRecord}
    (hw : w ∈ s.writes) : w.chunk.range ∈ s.plan.ranges.take s.dispatched := by
  obtain ⟨range, hrange, heq⟩ := List.mem_map.mp (h.mem_sent_of_write hw)
  rw [← heq]
  exact hrange

/-- An attempt that was done is a write that was acknowledged. -/
theorem Invariant.acknowledged_of_done (h : s.Invariant J r store₀) {ticket : Nat} {c : Chunk}
    (hc : (s.sent r)[ticket]? = some c) (hdone : Outcome.done ∈ s.pool.outcomes ticket) :
    s.Acknowledged c.range := by
  obtain ⟨e, he, hoe⟩ := List.mem_map.mp hdone
  obtain ⟨he, hticket⟩ := List.mem_filter.mp he
  obtain ⟨w, hw, hchunk, houtcome⟩ := exists_related h.written he
  rw [of_decide_eq_true hticket, hc] at hchunk
  injection hchunk with hchunk
  rw [hoe] at houtcome
  refine ⟨w, hw, by rw [← hchunk], ?_⟩
  cases hresult : w.result with
  | ok _ => rfl
  | error f =>
    rw [hresult] at houtcome
    cases f with
    | failed e => exact nomatch houtcome
    | panicked text => exact nomatch houtcome

/-- A session that claims success has come to its end without a failure of the producer. -/
theorem Invariant.done_of_success (h : s.Invariant J r store₀) (hs : s.ClaimsSuccess) :
    s.succeeded = true ∧ ∃ last, s.Done none last := by
  have hended : ∃ e last, s.phase = .ended (s.verdict e last) ∧ e = none ∧ s.succeeded = true := by
    rcases hs with ⟨result, hresult, hsuccess⟩ | ⟨bytes, percent, hevent⟩
    · unfold result? at hresult
      split at hresult
      next result' hphase =>
        injection hresult with hresult
        obtain ⟨e, last, -, -, hverdict⟩ := h.phased.of_phase hphase
        refine ⟨e, last, hverdict ▸ hphase, ?_⟩
        rw [hresult] at hverdict
        cases e with
        | none =>
          injection hverdict with hverdict
          rw [hverdict] at hsuccess
          exact ⟨rfl, hsuccess⟩
        | some e => exact nomatch hverdict
      next _ => exact nomatch hresult
    · obtain ⟨e, last, hphase, houtcome, -⟩ := h.concluded _ _ _ hevent
      refine ⟨e, last, hphase, ?_⟩
      cases e with
      | none =>
        refine ⟨rfl, ?_⟩
        change SessionOutcome.completed = s.outcome at houtcome
        unfold outcome at houtcome
        split at houtcome
        next hsucceeded => exact hsucceeded
        next _ => exact nomatch houtcome
      | some e => exact nomatch houtcome
  obtain ⟨e, last, hphase, rfl, hsucceeded⟩ := hended
  obtain ⟨e', last', hdone, -, hverdict⟩ := h.phased.of_phase hphase
  refine ⟨hsucceeded, last', ?_⟩
  cases e' with
  | none => exact hdone
  | some e' => exact nomatch hverdict

/-- What a success says of the pool and the dispatcher. -/
theorem succeeded_iff {σ : Type} {s : Session σ} : s.succeeded = true ↔
    s.failed = [] ∧ s.pool.report.failed = [] ∧
      s.dispatched ≤ s.pool.report.completed + s.pool.report.failed.length ∧ s.cutShort = false := by
  unfold succeeded unaccounted
  rw [Bool.and_eq_true, Bool.and_eq_true, Bool.and_eq_true, List.isEmpty_iff, List.isEmpty_iff,
    decide_eq_true_eq, Nat.sub_eq_zero_iff_le, Bool.not_eq_true', and_assoc, and_assoc]

theorem Invariant.length_requests (h : s.Invariant J r store₀) :
    (s.requests r).length = s.dispatched := by
  unfold requests sent
  rw [List.length_map, List.length_map, List.length_take]
  exact Nat.min_eq_left h.delivery.dispatched

theorem Invariant.acknowledged_of_sent (h : s.Invariant J r store₀) (hs : s.ClaimsSuccess)
    {c : Chunk} (hc : c ∈ s.sent r) : s.Acknowledged c.range := by
  obtain ⟨hsucceeded, last, hdone⟩ := h.done_of_success hs
  obtain ⟨-, hfailed, hall, -⟩ := succeeded_iff.mp hsucceeded
  obtain ⟨desks, haccounts⟩ := h.accounts
  obtain ⟨ticket, hticket⟩ := List.mem_iff_getElem?.mp hc
  have hrequest : (s.requests r)[ticket]? = some (requestOf s.retry c) := by
    unfold requests
    rw [List.getElem?_map, hticket]
    rfl
  rw [← h.length_requests] at hall
  obtain ⟨d, hd, x, hx, hjob, hlost⟩ : ∃ d ∈ desks, ∃ x ∈ d.settled,
      x.job = ⟨ticket, requestOf s.retry c⟩ ∧ x.fate ≠ .lost :=
    haccounts.settled_of_report hdone.gone hall hrequest
  obtain ⟨-, hreported⟩ := haccounts.whole_of_report hdone.gone hall
  have hsettles := haccounts.settled d hd x hx
  rw [hjob] at hsettles
  cases hfate : x.fate with
  | completed =>
    rw [hfate] at hsettles
    exact h.acknowledged_of_done hticket hsettles.done_mem
  | failed e =>
    have hnone : (Tally.of (Desk.allReported desks)).failed = [] := by
      rw [haccounts.report_eq hdone.gone]
      exact hfailed
    have hfailure := List.filterMap_eq_nil_iff.mp (List.map_eq_nil_iff.mp hnone) x (by
      rw [hreported]
      exact List.mem_flatMap.mpr ⟨d, hd, hx⟩)
    simp [Settlement.failure?, hfate] at hfailure
  | lost => exact absurd hfate hlost

theorem Invariant.ended_of_success (h : s.Invariant J r store₀) (hs : s.ClaimsSuccess) :
    (s.stream.ended = some .finished ∧ s.plan.ranges.take s.dispatched = s.plan.ranges ∧
        r.sweep s.plan.ranges = .finished) ∨
      (s.stream.ended = some .panicked ∧ r.sweep s.plan.ranges = .panicked ∧
        ∃ range, s.plan.ranges[s.dispatched]? = some range) := by
  obtain ⟨hsucceeded, last, hdone⟩ := h.done_of_success hs
  obtain ⟨-, -, -, hcut⟩ := succeeded_iff.mp hsucceeded
  obtain ⟨e, hended⟩ := Option.isSome_iff_exists.mp hdone.ended
  obtain ⟨hhand, hremaining⟩ := h.delivery.ended hcut e hended
  have hsweep := h.delivery.sweep hcut
  have horder := h.delivery.order hcut
  have hphase : s.phase.chunk = [] := by
    rcases hs with ⟨result, hresult, -⟩ | ⟨bytes, percent, hevent⟩
    · unfold result? at hresult
      split at hresult
      next result' hphase => rw [hphase]; rfl
      next _ => exact nomatch hresult
    · obtain ⟨e', last', hphase, -⟩ := h.concluded _ _ _ hevent
      rw [hphase]
      rfl
  have hheld : s.held = [] := by
    unfold held
    rw [hphase, hdone.slot hcut, hhand]
    rfl
  rw [hended] at hsweep
  rw [hheld, List.map_nil, List.nil_append] at horder
  cases e with
  | finished =>
    refine .inl ⟨hended, ?_, hsweep⟩
    rw [hremaining.mp rfl] at horder
    exact List.take_of_length_le (List.drop_eq_nil_iff.mp horder.symm)
  | failed e =>
    have herror := hdone.error
    unfold Stream.error? at herror
    rw [hended] at herror
    exact nomatch herror
  | panicked =>
    refine .inr ⟨hended, hsweep, ?_⟩
    cases hrest : s.stream.remaining with
    | nil => exact nomatch hremaining.mpr hrest
    | cons range rest =>
      rw [hrest] at horder
      refine ⟨range, ?_⟩
      rw [← List.head?_drop, ← horder]
      rfl

/-- A session that claims success has written its plan exactly if the source does not panic
while the plan is read. -/
theorem Invariant.acknowledged_iff (h : s.Invariant J r store₀) (hs : s.ClaimsSuccess)
    (hnodup : s.plan.ranges.Nodup) :
    (∀ range ∈ s.plan.ranges, s.Acknowledged range) ↔ r.sweep s.plan.ranges ≠ .panicked := by
  rcases h.ended_of_success hs with ⟨-, htake, hsweep⟩ | ⟨-, hsweep, range, hrange⟩
  · rw [hsweep]
    refine ⟨fun _ => nofun, fun _ range hrange => ?_⟩
    refine h.acknowledged_of_sent hs (c := .of r.source range) (List.mem_map.mpr ⟨range, ?_, rfl⟩)
    rw [htake]
    exact hrange
  · rw [hsweep]
    refine ⟨fun hall => ?_, fun hne => absurd rfl hne⟩
    obtain ⟨w, hw, hwrange, -⟩ := hall range (List.mem_of_getElem? hrange)
    have hmem := h.range_mem_of_write hw
    rw [hwrange] at hmem
    obtain ⟨i, hi⟩ := List.mem_iff_getElem?.mp hmem
    -- a range that was sent stands in the plan before the one that could not be read
    obtain ⟨hlt, hget⟩ := List.getElem?_eq_some_iff.mp hi
    rw [List.length_take] at hlt
    have hi' : s.plan.ranges[i]? = some range := by
      rw [List.getElem_take] at hget
      rw [← hget]
      exact List.getElem?_eq_getElem _
    have hsame := (List.getElem?_inj (by omega) hnodup).mp (hi'.trans hrange.symm)
    omega

end Session

/-- An upload that returns a result has it from a session that came to its end. -/
theorem UploadRun.result?_of_ok {σ : Type} {s : Session σ} {result : SessionResult}
    (h : (ofSession s).result = .ok result) : s.result? = some (.ok result) := by
  change s.result?.getD (.error .panicked) = .ok result at h
  cases hresult : s.result? with
  | none =>
    rw [hresult] at h
    exact nomatch h
  | some outcome =>
    rw [hresult] at h
    exact congrArg some h

namespace Upload

variable {σ : Type} [PageStore σ]

theorem plan_ok {options : UploadOptions} {source : Source} {present : RangeSet} {store : σ}
    {p : Plan} {r : Reader} (hsize : source.size ≤ 2 ^ 64) (hpresent : present.Canonical)
    (h : plan options source present store = (.ok p, r)) :
    p.Serves (layoutFor options store) present source ∧ r.source = source := by
  have hsource := (Reader.ofSource source).reconcile_source (layoutFor options store) present
  unfold plan at h
  split at h
  next _ => exact nomatch h
  next _ => exact nomatch h
  next p' r' hreconcile =>
    injection h with hp hr
    injection hp with hp
    rw [hreconcile] at hsource
    exact ⟨hp ▸ Reader.reconcile_ok (r := .ofSource source) hsize hpresent hreconcile, hr ▸ hsource⟩

/-- An upload that has a plan is its session on the schedule. -/
theorem run_of_plan {options : UploadOptions} {watched : Bool} {parallelism : Option Nat}
    {source : Source} {present : RangeSet} {store : σ} {p : Plan} {r : Reader}
    (h : plan options source present store = (.ok p, r)) :
    run options watched parallelism source present true store = .ofSession
      (Session.complete watched (Session.start options (workers options parallelism) p r store)) := by
  unfold run runBy
  rw [if_pos rfl, h]

/-- For every source, every store and every order of what happens: a session that claims
success has written all of its plan, unless the source panics while the plan is read.
Then it has not, and claims success all the same. -/
theorem acknowledged_iff_of_success {options : UploadOptions} {parallelism : Option Nat}
    {source : Source} {present : RangeSet} {store : σ} {p : Plan} {r : Reader}
    {actions : List SessionAction} {s : Session σ} (hsize : source.size < 2 ^ 64)
    (hpresent : present.Canonical) (hplan : plan options source present store = (.ok p, r))
    (hrun : (Session.start options (workers options parallelism) p r store).run actions = some s)
    (hs : s.ClaimsSuccess) :
    (∀ range ∈ p.ranges, s.Acknowledged range) ↔ r.sweep p.ranges ≠ .panicked := by
  have hJ : ∀ a ∈ actions, Session.Draws (fun _ => True) a := fun a _ => Session.draws_true a
  have hinvariant := Session.invariant_run hJ hrun
  obtain ⟨hp, -⟩ := Session.constants_run hJ hrun
  obtain ⟨hserves, -⟩ := plan_ok (Nat.le_of_lt hsize) hpresent hplan
  have hiff := hinvariant.acknowledged_iff hs (hp ▸ hserves.nodup)
  rw [hp] at hiff
  exact hiff

theorem eq_ok_of_toOption {ε α : Type} {x : Except ε α} {a : α} (h : x.toOption = some a) :
    x = .ok a := by
  cases x with
  | error e => exact nomatch h
  | ok b =>
    injection h with h
    rw [h]

/-- Pages and chunks of one byte for one worker. -/
def byteOptions : UploadOptions :=
  ⟨1, 1, ⟨1, 1⟩, .standard, .ofMillis 500, 60⟩

/-- An image of one byte is read, queued and written, and the session says so. -/
theorem acknowledged_iff_of_success_byte :
    let range : ByteRange := ⟨0, 0, by decide, by decide⟩
    ∃ actions s, (Session.start byteOptions 1 ⟨1, [range]⟩ ⟨.ofBytes ⟨#[7]⟩, 1, 1, 1⟩
        ((MemoryStore.empty 1 1).create 1 .empty).2).run actions = some s ∧
      s.ClaimsSuccess ∧ s.Acknowledged range := by
  intro range
  have hplan : plan byteOptions (.ofBytes ⟨#[7]⟩) .empty
      ((MemoryStore.empty 1 1).create 1 .empty).2 = (.ok ⟨1, [range]⟩, ⟨.ofBytes ⟨#[7]⟩, 1, 1, 1⟩) := by
    with_unfolding_all rfl
  have hsuccess : ((Session.start byteOptions 1 ⟨1, [range]⟩ ⟨.ofBytes ⟨#[7]⟩, 1, 1, 1⟩
      ((MemoryStore.empty 1 1).create 1 .empty).2).run
        [.read, .offer, .receive, .send, .take 0, .write 0 1, .close, .shut, .leave 0, .stop,
          .conclude]).bind (fun s => s.result?.bind fun r => r.toOption.map SessionResult.success) =
      some true := by decide +kernel
  obtain ⟨s, hs, hended⟩ := Option.bind_eq_some_iff.mp hsuccess
  obtain ⟨result, hresult, hended⟩ := Option.bind_eq_some_iff.mp hended
  obtain ⟨result', hok, htrue⟩ := Option.map_eq_some_iff.mp hended
  have hclaims : s.ClaimsSuccess := .inl ⟨result', eq_ok_of_toOption hok ▸ hresult, htrue⟩
  have hrun : (Session.start byteOptions (workers byteOptions none) ⟨1, [range]⟩
      ⟨.ofBytes ⟨#[7]⟩, 1, 1, 1⟩ ((MemoryStore.empty 1 1).create 1 .empty).2).run _ = some s := hs
  have hread : Reader.sweep [range] ⟨.ofBytes ⟨#[7]⟩, 1, 1, 1⟩ ≠ .panicked := by decide +kernel
  exact ⟨_, s, hs, hclaims, (acknowledged_iff_of_success (by decide) RangeSet.canonical_empty
    hplan hrun hclaims).mpr hread range List.mem_cons_self⟩

/-- Two bytes, with a panic in the fourth read.  The plan is drawn up with the first two
reads, and the second range is to be read again with the fourth. -/
def panickingSource : Source :=
  { Source.ofBytes ⟨#[1, 2]⟩ with onRead := fun n => if n = 3 then .panicked else .ready }

/-- The upload of a source that panics returns with success, and the second of the two
planned ranges has never been written. -/
theorem success_without_write :
    ∃ result p r range, plan byteOptions panickingSource .empty
        ((MemoryStore.empty 1 1).create 2 .empty).2 = (.ok p, r) ∧
      (run byteOptions true none panickingSource .empty false
        ((MemoryStore.empty 1 1).create 2 .empty).2).result = .ok result ∧
      result.success = true ∧ range ∈ p.ranges ∧
      ∀ w ∈ (run byteOptions true none panickingSource .empty false
        ((MemoryStore.empty 1 1).create 2 .empty).2).writes, w.chunk.range ≠ range := by
  have hranges : (plan byteOptions panickingSource .empty
      ((MemoryStore.empty 1 1).create 2 .empty).2).1.toOption.map Plan.ranges =
      some [⟨0, 0, by decide, by decide⟩, ⟨1, 1, by decide, by decide⟩] := by decide +kernel
  have hsuccess : (run byteOptions true none panickingSource .empty false
      ((MemoryStore.empty 1 1).create 2 .empty).2).result.toOption.map SessionResult.success =
      some true := by decide +kernel
  have hwrites : ∀ w ∈ (run byteOptions true none panickingSource .empty false
      ((MemoryStore.empty 1 1).create 2 .empty).2).writes,
      w.chunk.range ≠ ⟨1, 1, by decide, by decide⟩ := by decide +kernel
  rcases hplan : plan byteOptions panickingSource .empty
      ((MemoryStore.empty 1 1).create 2 .empty).2 with ⟨planned, r⟩
  rw [hplan] at hranges
  obtain ⟨p, hp, hboth⟩ := Option.map_eq_some_iff.mp hranges
  obtain ⟨result, hresult, htrue⟩ := Option.map_eq_some_iff.mp hsuccess
  have hok := eq_ok_of_toOption hp
  subst hok
  refine ⟨result, p, r, ⟨1, 1, by decide, by decide⟩, rfl, eq_ok_of_toOption hresult, htrue, ?_,
    hwrites⟩
  rw [hboth]
  exact List.mem_cons_of_mem _ List.mem_cons_self

end Upload
end ImageUpload
