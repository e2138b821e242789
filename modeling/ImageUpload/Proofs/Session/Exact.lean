import ImageUpload.Proofs.Session.Disturbed
import ImageUpload.Proofs.Session.Ending
import ImageUpload.Proofs.Session.Loss

/-
What a session comes to, told from its script alone.

A session in which nothing fails but writes ends with exactly the losses of its script, has
counted exactly the other ranges, and says so, `Accounted`, however its parts take turns.
-/

namespace ImageUpload

/-! ## The account -/

namespace Session

variable {σ : Type} [PageStore σ] {s : Session σ} {r : Reader} {store₀ : σ} {script : WriteScript}
  {k : ByteRange → Nat} {last : ProgressRecord}

/-- The session has come to what its script says: there is one entry for each loss, what
arrived is counted, and no event tells anything else. -/
structure Accounted (script : WriteScript) (k : ByteRange → Nat) (s : Session σ)
    (result : SessionResult) : Prop where
  failed : result.failed.Perm (s.plan.losses script k)
  success : result.success = true ↔ s.plan.losses script k = []
  complete : s.plan.losses script k = [] → result.toExcept = .ok result
  incomplete : s.plan.losses script k ≠ [] → ∃ ids, result.toExcept = .error (.incomplete ids) ∧
    ids.Perm ((s.plan.losses script k).map fun f => f.range.id)
  outcome : s.outcome = if s.plan.losses script k = [] then .completed
    else .incomplete (s.plan.losses script k).length
  finished : ∀ outcome bytes percent, .finished outcome bytes percent ∈ s.taken ++ s.waiting →
    outcome = s.outcome ∧ bytes = result.bytes ∧ percent = result.progress.percent
  bytes : result.bytes = ((s.plan.arrivals script k).map ByteRange.length).sum
  processed : result.progress.processed +
    ((s.plan.losses script k).map fun f => f.range.length).sum = s.plan.size
  total : result.progress.total = s.plan.size
  ascending : ((s.taken ++ s.waiting).filterMap UploadEvent.progress?).Pairwise
    (fun x y => x.processed ≤ y.processed)
  told : ∀ x, .progress x ∈ s.taken ++ s.waiting →
    x.processed ≤ result.progress.processed ∧ x.total = s.plan.size ∧ x.percent ≤ 100

/-- Success is told from the report and the listener alike. -/
theorem Smooth.succeeded_iff_losses (h : s.Smooth r store₀) (hfollows : s.Follows script)
    (hk : ∀ range ∈ s.plan.ranges, s.retry.Settles (script range) (k range))
    (hd : s.Done none last) (hphase : s.phase.chunk = []) :
    s.succeeded = true ↔ s.plan.losses script k = [] := by
  obtain ⟨hreport, hlength⟩ := h.report_losses hfollows hk hd hphase
  have hfailed := (h.perm_losses hfollows hk hd hphase).length_eq
  rw [succeeded_iff]
  constructor
  · rintro ⟨hnil, -⟩
    rw [hnil] at hfailed
    exact List.length_eq_zero_iff.mp hfailed.symm
  · intro hnil
    rw [hnil] at hfailed hlength
    exact ⟨List.length_eq_zero_iff.mp hfailed, List.length_eq_zero_iff.mp hlength,
      Nat.le_of_eq hreport.symm, h.cutShort⟩

theorem Smooth.outcome_eq (h : s.Smooth r store₀) (hfollows : s.Follows script)
    (hk : ∀ range ∈ s.plan.ranges, s.retry.Settles (script range) (k range))
    (hd : s.Done none last) (hphase : s.phase.chunk = []) :
    s.outcome = if s.plan.losses script k = [] then .completed
      else .incomplete (s.plan.losses script k).length := by
  have hiff := h.succeeded_iff_losses hfollows hk hd hphase
  obtain ⟨hreport, hlength⟩ := h.report_losses hfollows hk hd hphase
  have hfailed := (h.perm_losses hfollows hk hd hphase).length_eq
  unfold outcome
  by_cases hnil : s.plan.losses script k = []
  · rw [if_pos (hiff.mpr hnil), if_pos hnil]
  · rw [if_neg fun hs => hnil (hiff.mp hs), if_neg hnil]
    unfold unaccounted
    rw [hreport, hlength, hfailed, Nat.max_self, Nat.sub_self]
    rfl

/-- A session that has ended has come to what its script says. -/
theorem Smooth.accounted (h : s.Smooth r store₀) (hcounted : s.Counted)
    (hfollows : s.Follows script)
    (hk : ∀ range ∈ s.plan.ranges, s.retry.Settles (script range) (k range))
    {outcome : Except UploadError SessionResult} (hphase : s.phase = .ended outcome) :
    ∃ result, outcome = .ok result ∧ s.Accounted script k result := by
  obtain ⟨e, last, hd, hrecords, hverdict⟩ := h.invariant.phased.of_phase hphase
  obtain rfl := h.closed_none hd.toClosed
  have hchunk : s.phase.chunk = [] := by
    rw [hphase]
    rfl
  have hlosses := h.perm_losses hfollows hk hd hchunk
  have hiff := h.succeeded_iff_losses hfollows hk hd hchunk
  obtain ⟨hprocessed, htotal, hlast⟩ := hcounted.lastRecord h.toIntact
  rw [← hd.last] at hprocessed htotal hlast
  have hsent : s.sentBytes = ((s.plan.arrivals script k).map ByteRange.length).sum :=
    ((h.perm_arrivals hfollows hk hd hchunk).map ByteRange.length).sum_eq
  have hsum := s.plan.sum_arrivals script k
  have heffective := hcounted.effective
  have hevents : ∀ x ∈ (s.taken ++ s.waiting).filterMap UploadEvent.progress?, x ∈ s.told :=
    fun x hx => List.mem_append_left _ hx
  refine ⟨⟨s.succeeded, s.failed, s.bytesSent last, last⟩, hverdict, ?_⟩
  constructor
  · exact hlosses
  · exact hiff
  · intro hnil
    exact if_pos (hiff.mpr hnil)
  · intro hnot
    exact ⟨_, if_neg fun hs => hnot (hiff.mp hs), hlosses.map fun f => f.range.id⟩
  · exact h.outcome_eq hfollows hk hd hchunk
  · intro outcome' bytes percent hmem
    obtain ⟨e', last', hphase', houtcome, hbytes, hpercent⟩ :=
      h.invariant.concluded outcome' bytes percent hmem
    rw [hphase, hverdict] at hphase'
    injection hphase' with heq
    cases e' with
    | some e' => exact nomatch heq
    | none =>
      injection heq with heq
      injection heq with _ _ _ hsame
      rw [← hsame] at hbytes hpercent
      exact ⟨houtcome, hbytes, hpercent⟩
  · show last.processed - s.plan.already = _
    rw [hprocessed, Nat.add_sub_cancel_left, hsent]
  · show last.processed + _ = s.plan.size
    rw [hprocessed, hsent]
    unfold Plan.already
    omega
  · exact htotal
  · exact (List.pairwise_append.mp hcounted.ascending).1
  · intro x hx
    have hmem := hevents x (List.mem_filterMap.mpr ⟨_, hx, rfl⟩)
    obtain ⟨-, -, hrest⟩ := hcounted.told x hmem
    exact ⟨hlast x hmem, hrest⟩

end Session

/-! ## Uploads -/

namespace Upload

variable {σ : Type} [PageStore σ] {options : UploadOptions} {parallelism : Option Nat}
  {source : Source} {image : ByteArray} {present : RangeSet} {store : σ} {p : Plan} {r : Reader}
  {script : WriteScript} {k : ByteRange → Nat} {actions : List SessionAction} {s : Session σ}

theorem eq_of_planned {planned : Except UploadError Plan × Reader} {size : Nat}
    {ranges : List ByteRange}
    (h : planned.1.toOption.map (fun p => (p.size, p.ranges)) = some (size, ranges)) :
    planned = (.ok ⟨size, ranges⟩, planned.2) := by
  obtain ⟨⟨size', ranges'⟩, hp, hboth⟩ := Option.map_eq_some_iff.mp h
  injection hboth with hsize hranges
  refine Prod.ext ?_ rfl
  rw [eq_ok_of_toOption hp, ← hsize, ← hranges]

theorem smooth_plan (parallelism : Option Nat) (hsource : source.Delivers image)
    (hsize : image.size < 2 ^ 64) (hpresent : present.Canonical)
    (hinterval : 0 < options.interval.nanos) (hwaits : options.retry.Waits)
    (hplan : plan options source present store = (.ok p, r)) :
    p.size = image.size ∧
      (Session.start options (workers options parallelism) p r store).Smooth r store ∧
      (Session.start options (workers options parallelism) p r store).Counted := by
  obtain ⟨hserves, hreader, hintact, hcounted⟩ :=
    intact_plan parallelism (by rw [hsource.size]; exact hsize) hpresent hinterval hwaits hplan
  refine ⟨hserves.size.trans hsource.size, ⟨hintact, ?_⟩, hcounted⟩
  refine Reader.sweep_delivers (hreader ▸ hsource) fun range hrange => ?_
  rw [← hsource.size]
  exact hserves.inside range hrange

/-- Whatever a script makes of the writes, and whatever takes turns with what: a session in
which nothing else fails can always come to its end, and when it has ended it has lost what
the script loses, has counted the rest, and says so. -/
theorem accounting_exact (hsource : source.Delivers image) (hsize : image.size < 2 ^ 64)
    (hpresent : present.Canonical) (hinterval : 0 < options.interval.nanos)
    (hwaits : options.retry.Waits) (hplan : plan options source present store = (.ok p, r))
    (hscript : ∀ actions s,
      (Session.start options (workers options parallelism) p r store).run actions = some s →
        s.Follows script)
    (hk : ∀ range ∈ p.ranges, options.retry.Settles (script range) (k range))
    (hrun : (Session.start options (workers options parallelism) p r store).run actions = some s) :
    (∃ more s' result, s.run more = some s' ∧ s'.result? = some result) ∧
      ∀ outcome, s.result? = some outcome →
        ∃ result, outcome = .ok result ∧ s.plan = p ∧ p.size = image.size ∧
          s.Accounted script k result := by
  obtain ⟨hpsize, hsmooth, hcounted⟩ :=
    smooth_plan parallelism hsource hsize hpresent hinterval hwaits hplan
  obtain ⟨hp, hretry⟩ := Session.constants_run (Session.jittered_of_run hrun) hrun
  have hsmooth' := Session.smooth_run hsmooth hrun
  have hk' : ∀ range ∈ s.plan.ranges, s.retry.Settles (script range) (k range) := by
    rw [hp, hretry]
    exact hk
  refine ⟨hsmooth'.exists_end (fun more s' hmore => ?_) hk', fun outcome houtcome => ?_⟩
  · refine hscript (actions ++ more) s' ?_
    rw [Session.run_append, hrun]
    exact hmore
  · obtain ⟨result, hok, haccounted⟩ :=
      hsmooth'.accounted (Session.counted_run hcounted hsmooth hrun) (hscript actions s hrun) hk'
        (Session.phase_of_result? houtcome)
    exact ⟨result, hok, hp, hpsize, haccounted⟩

/-- Two bytes.  The first one is written with the second attempt, and the second one never. -/
def fadingStore : DisturbedStore MemoryStore :=
  .around ((MemoryStore.empty 1 1).create 2 .empty).2
    { write := fun range attempt =>
        if range.first = 1 ∨ attempt = 1 then .fails false (.io "away") else .passes }

/-- Each range is tried twice, without a wait. -/
def twiceOptions : UploadOptions :=
  { byteOptions with retry := ⟨some 2, .zero, .zero, 1⟩ }

/-- With two attempts for each range the first one arrives and the second one is lost. -/
theorem accounting_exact_pair :
    let first : ByteRange := ⟨0, 0, by decide, by decide⟩
    let second : ByteRange := ⟨1, 1, by decide, by decide⟩
    let planned := plan twiceOptions (.ofBytes ⟨#[1, 2]⟩) .empty fadingStore
    planned = (.ok ⟨2, [first, second]⟩, planned.2) ∧
      ∃ actions s result,
        (Session.start twiceOptions 1 ⟨2, [first, second]⟩ planned.2 fadingStore).run actions =
          some s ∧
        s.result? = some (.ok result) ∧ result.failed = [⟨second, 2, "I/O error: away"⟩] ∧
        result.bytes = 1 ∧ result.progress.processed = 1 ∧ s.outcome = .incomplete 1 := by
  intro first second planned
  have hplanned : planned.1.toOption.map (fun p => (p.size, p.ranges)) =
      some (2, [first, second]) := by decide +kernel
  have hended : ((Session.complete true (Session.start twiceOptions 1 ⟨2, [first, second]⟩
      planned.2 fadingStore)).result?).isSome = true := by decide +kernel
  have hplan : plan twiceOptions (.ofBytes ⟨#[1, 2]⟩) .empty fadingStore = planned := rfl
  clear_value planned
  have hp := eq_of_planned hplanned
  rw [hp] at hplan
  have hfollows := follows_disturbance none (by decide) RangeSet.canonical_empty hplan ⟨_, rfl, rfl⟩
    rfl
  have hsettles : ∀ range ∈ [first, second], twiceOptions.retry.Settles
      (fun attempt => (fadingStore.disturbance.write range attempt).answer) 2 := by
    intro range hrange
    refine ⟨by decide, ?_, ?_⟩
    · rcases List.mem_pair.mp hrange with rfl | rfl <;> decide
    · intro j hpos hj
      obtain rfl : j = 1 := by omega
      rcases List.mem_pair.mp hrange with rfl | rfl <;> decide
  obtain ⟨actions, hrun⟩ := Session.drives_complete true
    (Session.start twiceOptions 1 ⟨2, [first, second]⟩ planned.2 fadingStore)
  obtain ⟨outcome, houtcome⟩ := Option.isSome_iff_exists.mp hended
  obtain ⟨-, hexact⟩ := accounting_exact (Source.ofBytes_delivers ⟨#[1, 2]⟩ (by decide)) (by decide)
    RangeSet.canonical_empty (by decide) (RetryPolicy.waits_of_maxDelay rfl) hplan hfollows
    hsettles hrun
  obtain ⟨result, rfl, hs, -, haccounted⟩ := hexact outcome houtcome
  have hlosses : (Plan.mk 2 [first, second]).losses (fun range attempt =>
      (fadingStore.disturbance.write range attempt).answer) (fun _ => 2) =
      [⟨second, 2, "I/O error: away"⟩] := by decide +kernel
  have hfailed := haccounted.failed
  have houtcome' := haccounted.outcome
  have hbytes := haccounted.bytes
  have hprocessed := haccounted.processed
  rw [hs] at hfailed houtcome' hbytes hprocessed
  rw [hlosses] at hfailed houtcome' hprocessed
  refine ⟨hp, actions, _, result, hrun, houtcome, List.perm_singleton.mp hfailed, ?_, ?_, ?_⟩
  · rw [hbytes]
    decide +kernel
  · have hsum : result.progress.processed + 1 = 2 := hprocessed
    omega
  · exact houtcome'

/-- On the schedule such an upload always returns. -/
theorem run_returns {watched : Bool} (hsource : source.Delivers image) (hsize : image.size < 2 ^ 64)
    (hpresent : present.Canonical) (hinterval : 0 < options.interval.nanos)
    (hwaits : options.retry.Waits) (hplan : plan options source present store = (.ok p, r))
    (hscript : ∀ actions s,
      (Session.start options (workers options parallelism) p r store).run actions = some s →
        s.Follows script)
    (hk : ∀ range ∈ p.ranges, options.retry.Settles (script range) (k range))
    (hlimit : options.retry.maxAttempts ≠ none) :
    ∃ result, (run options watched parallelism source present true store).result = .ok result ∧
      result.failed.Perm (p.losses script k) := by
  obtain ⟨n, hn⟩ := Option.ne_none_iff_exists'.mp hlimit
  obtain ⟨-, hsmooth, hcounted⟩ :=
    smooth_plan parallelism hsource hsize hpresent hinterval hwaits hplan
  obtain ⟨outcome, houtcome⟩ := hsmooth.toIntact.complete_ended watched
    (hsmooth.bounded_run hscript hk) fun range hrange => (hk range hrange).le_attemptLimit hn
  obtain ⟨actions, hrun⟩ := Session.drives_complete watched
    (Session.start options (workers options parallelism) p r store)
  obtain ⟨hp, hretry⟩ := Session.constants_run (Session.jittered_of_run hrun) hrun
  rw [← hp, ← hretry] at hk
  obtain ⟨result, rfl, haccounted⟩ := (Session.smooth_run hsmooth hrun).accounted
    (Session.counted_run hcounted hsmooth hrun) (hscript actions _ hrun) hk
    (Session.phase_of_result? houtcome)
  refine ⟨result, ?_, hp ▸ haccounted.failed⟩
  rw [run_of_plan hplan]
  show ((Session.complete watched
    (Session.start options (workers options parallelism) p r store)).result?).getD _ = _
  rw [houtcome]
  rfl

end Upload
end ImageUpload
