import Mathlib.Algebra.Order.BigOperators.Group.List
import Mathlib.Algebra.Order.Group.Nat
import Mathlib.Data.List.Perm.Subperm
import ImageUpload.Proofs.Session.Smooth

/-
What the estimator counts.

A range is acknowledged once at most, so the bytes that are acknowledged fit the plan and
no sum is ever capped.  The estimator has counted all of them or has them in its inbox,
`Counted.sum`, and what it tells never goes down and never goes beyond them, `Counted.told`.
-/

namespace ImageUpload

/-! ## Attempts that are done -/

variable {ω ε : Type} {J : Float → Prop}

theorem Request.countP_done_of_tried {r : Request ω ε} {outcomes : List (Outcome ε)}
    (h : r.Tried outcomes) : outcomes.countP Outcome.isDone = 0 := by
  refine List.countP_eq_zero.mpr fun o ho => ?_
  obtain ⟨i, hi⟩ := List.mem_iff_getElem?.mp ho
  obtain ⟨e, rfl, -⟩ := h i o hi
  exact nofun

theorem Pool.Accounts.countP_done_le {p : Pool ω ε} {sent : List (Request ω ε)}
    {desks : List (Desk ω ε)} (h : p.Accounts J sent desks) (ticket : Nat) :
    (p.outcomes ticket).countP Outcome.isDone ≤ 1 := by
  by_cases hat : ∃ d ∈ desks, ∃ job ∈ d.jobs, job.ticket = ticket
  · obtain ⟨d, hd, job, hjob, rfl⟩ := hat
    rcases List.mem_append.mp hjob with hheld | hsettled
    · have hagrees := h.agrees d hd
      have htried : job.request.Tried (p.outcomes job.ticket) := by
        cases hw : d.worker with
        | running tally job' attempt =>
          rw [hw] at hagrees hheld
          rw [List.mem_singleton.mp hheld]
          exact hagrees.2.2
        | waiting tally job' attempt e delay =>
          rw [hw] at hagrees hheld
          rw [List.mem_singleton.mp hheld]
          exact hagrees.2.2.1
        | idle | left | dead =>
          rw [hw] at hheld
          exact nomatch hheld
      rw [Request.countP_done_of_tried htried]
      exact Nat.zero_le 1
    · obtain ⟨x, hx, rfl⟩ := List.mem_map.mp hsettled
      obtain ⟨before, o, houtcomes, -, htried, -⟩ := h.settled d hd x hx
      rw [houtcomes, List.countP_append, Request.countP_done_of_tried htried, Nat.zero_add]
      exact List.countP_le_length
  · rw [h.fresh ticket fun d hd job hjob heq => hat ⟨d, hd, job, hjob, heq⟩]
    exact Nat.zero_le 1

namespace Session

variable {σ : Type} {s s' : Session σ}

/-- The ranges whose writes were acknowledged. -/
def acknowledged (s : Session σ) : List ByteRange :=
  (s.writes.filter fun w => w.result.isOk).map fun w => w.chunk.range

/-- The bytes that were acknowledged. -/
def sentBytes (s : Session σ) : Nat :=
  (s.acknowledged.map ByteRange.length).sum

theorem sentBytes_concat {w : WriteRecord} (h : s'.writes = s.writes ++ [w]) :
    s'.sentBytes = s.sentBytes + if w.result.isOk then w.chunk.range.length else 0 := by
  unfold sentBytes acknowledged
  rw [h, List.filter_append, List.map_append, List.map_append, List.sum_append,
    List.filter_singleton]
  cases w.result.isOk with
  | true => rfl
  | false => rfl

theorem mem_acknowledged {range : ByteRange} : range ∈ s.acknowledged ↔ s.Acknowledged range := by
  unfold acknowledged
  rw [List.mem_map]
  constructor
  · rintro ⟨w, hw, rfl⟩
    obtain ⟨hmem, hok⟩ := List.mem_filter.mp hw
    refine ⟨w, hmem, rfl, ?_⟩
    cases hresult : w.result with
    | ok _ => rfl
    | error f =>
      rw [hresult] at hok
      exact nomatch hok
  · rintro ⟨w, hmem, rfl, hok⟩
    refine ⟨w, List.mem_filter.mpr ⟨hmem, ?_⟩, rfl⟩
    rw [hok]
    rfl

theorem count_acknowledged (s : Session σ) (range : ByteRange) :
    s.acknowledged.count range = (s.writesOf range).countP fun w => w.result.isOk := by
  unfold acknowledged writesOf List.count
  rw [List.countP_map, List.countP_filter, List.countP_filter]
  refine List.countP_congr fun w _ => ?_
  simp [and_comm]

variable [PageStore σ] {a : SessionAction} {r : Reader} {store₀ : σ}

theorem isDone_outcomeOf (result : Except WriteFault Unit) :
    (outcomeOf result).isDone = result.isOk := by
  cases result with
  | ok _ => rfl
  | error f =>
    cases f with
    | failed e => rfl
    | panicked text => rfl

theorem Invariant.nodup_acknowledged (h : s.Invariant J r store₀) (hnodup : s.plan.ranges.Nodup) :
    s.acknowledged.Nodup := by
  refine List.nodup_iff_count.mpr fun range => ?_
  rw [count_acknowledged]
  cases hwrites : s.writesOf range with
  | nil => exact Nat.zero_le 1
  | cons w rest =>
    have hw : w ∈ s.writesOf range := hwrites ▸ List.mem_cons_self
    obtain ⟨hmem, hrange⟩ := List.mem_filter.mp hw
    have hplan := List.mem_of_mem_take (h.range_mem_of_write hmem)
    rw [of_decide_eq_true hrange] at hplan
    obtain ⟨ticket, hticket⟩ := List.mem_iff_getElem?.mp hplan
    obtain ⟨desks, haccounts⟩ := h.accounts
    have hle := haccounts.countP_done_le ticket
    rw [h.outcomes_eq hnodup hticket, List.countP_map] at hle
    rw [← hwrites]
    refine Nat.le_trans (Nat.le_of_eq (List.countP_congr fun w _ => ?_)) hle
    rw [Function.comp_apply, isDone_outcomeOf]

theorem Invariant.sentBytes_le (h : s.Invariant J r store₀) (hnodup : s.plan.ranges.Nodup) :
    s.sentBytes ≤ s.plan.effective := by
  have hsub : s.acknowledged ⊆ s.plan.ranges := by
    intro range hrange
    obtain ⟨w, hw, rfl, -⟩ := mem_acknowledged.mp hrange
    exact List.mem_of_mem_take (h.range_mem_of_write hw)
  obtain ⟨l, hperm, hsublist⟩ := (h.nodup_acknowledged hnodup).subperm hsub
  unfold sentBytes Plan.effective
  rw [← (hperm.map ByteRange.length).sum_eq]
  exact (hsublist.map ByteRange.length).sum_le_sum fun _ _ => Nat.zero_le _

end Session

/-! ## The estimator -/

theorem foldl_addCapped {l : List Nat} {n : Nat} (h : n + l.sum < 2 ^ 64) :
    l.foldl addCapped n = n + l.sum := by
  induction l generalizing n with
  | nil => rfl
  | cons a rest ih =>
    rw [List.sum_cons] at h
    have hcap : addCapped n a = n + a := by
      unfold addCapped
      omega
    rw [List.foldl_cons, hcap, ih (by omega), List.sum_cons]
    omega

theorem le_of_lt_float {x y : Float} (h : x < y) : x ≤ y := by
  have hlt : Float.lt x y = true := h
  show Float.le x y = true
  unfold Float.lt at hlt
  unfold Float.le
  rw [decide_eq_true_eq] at hlt ⊢
  change x.toModel.unpack.lt y.toModel.unpack = true at hlt
  change x.toModel.unpack.le y.toModel.unpack = true
  unfold Float.Model.UnpackedFloat.lt at hlt
  unfold Float.Model.UnpackedFloat.le
  rw [beq_iff_eq] at hlt
  rw [hlt]
  rfl

theorem ProgressRecord.percentOf_le (processed total : Nat) : percentOf processed total ≤ 100 := by
  unfold percentOf
  split
  next _ => decide +kernel
  next _ =>
    simp only
    split
    next hlt => exact le_of_lt_float hlt
    next _ => decide +kernel

/-- The record that an event tells. -/
def UploadEvent.progress? : UploadEvent → Option ProgressRecord
  | .progress record => some record
  | _ => none

namespace Session

variable {σ : Type} {s s' : Session σ}

/-- The progress that events have told or will tell, the oldest first. -/
def told (s : Session σ) : List ProgressRecord :=
  (s.taken ++ s.waiting).filterMap UploadEvent.progress? ++ s.estimator.records

/-- The estimator knows of every byte that was acknowledged, and tells of no others. -/
structure Counted (s : Session σ) : Prop where
  measured : s.measured = true
  size_lt : s.plan.size < 2 ^ 64
  effective : s.plan.effective ≤ s.plan.size
  total : s.estimator.total = s.plan.size
  sum : s.estimator.processed + s.estimator.inbox.sum = s.plan.already + s.sentBytes
  already : s.plan.already ≤ s.estimator.processed
  ascending : s.told.Pairwise (fun x y => x.processed ≤ y.processed)
  told : ∀ x ∈ s.told, s.plan.already ≤ x.processed ∧ x.processed ≤ s.estimator.processed ∧
    x.total = s.plan.size ∧ x.percent ≤ 100

theorem counted_start {options : UploadOptions} {parallelism : Nat} {plan : Plan} {r : Reader}
    {store : σ} (hinterval : 0 < options.interval.nanos) (hsize : plan.size < 2 ^ 64)
    (heffective : plan.effective ≤ plan.size) :
    (start options parallelism plan r store).Counted :=
  { measured := decide_eq_true hinterval
    size_lt := hsize
    effective := heffective
    total := rfl
    sum := rfl
    already := Nat.le_refl _
    ascending := .nil
    told := nofun }

/-- An event that waits, or is dropped, adds no more than what it tells. -/
theorem told_enqueue (taken waiting : List UploadEvent) (e : UploadEvent) :
    List.Sublist ((taken ++ enqueue waiting e).filterMap UploadEvent.progress?)
      ((taken ++ waiting).filterMap UploadEvent.progress? ++ e.progress?.toList) := by
  unfold enqueue
  split
  next _ =>
    rw [← List.append_assoc, List.filterMap_append, List.filterMap_cons, List.filterMap_nil]
    cases e.progress? with
    | none => exact .refl _
    | some x => exact .refl _
  next _ => exact List.sublist_append_left _ _

theorem told_sublist {e : UploadEvent} (htaken : s'.taken = s.taken)
    (hwaiting : s'.waiting = enqueue s.waiting e)
    (hrecords : s.estimator.records = e.progress?.toList ++ s'.estimator.records) :
    s'.told.Sublist s.told := by
  unfold told
  rw [htaken, hwaiting, hrecords, ← List.append_assoc]
  exact (told_enqueue s.taken s.waiting e).append (.refl _)

theorem Counted.keep (h : s.Counted) (hmeasured : s'.measured = s.measured)
    (hplan : s'.plan = s.plan) (htotal : s'.estimator.total = s.estimator.total)
    (hprocessed : s'.estimator.processed = s.estimator.processed)
    (hsum : s'.estimator.inbox.sum + s.sentBytes = s.estimator.inbox.sum + s'.sentBytes)
    (htold : s'.told.Sublist s.told) : s'.Counted := by
  constructor
  · rw [hmeasured]
    exact h.measured
  · rw [hplan]
    exact h.size_lt
  · rw [hplan]
    exact h.effective
  · rw [htotal, hplan]
    exact h.total
  · have hbefore := h.sum
    rw [hprocessed, hplan]
    omega
  · rw [hplan, hprocessed]
    exact h.already
  · exact h.ascending.sublist htold
  · rw [hplan, hprocessed]
    exact fun x hx => h.told x (htold.subset hx)

/-- A tick counts what is in the inbox, and may tell of it. -/
theorem Counted.tick (h : s.Counted) (now : Nat)
    (hbound : s.plan.already + s.sentBytes < 2 ^ 64) :
    ({ s with estimator := s.estimator.tick now } : Session σ).Counted := by
  have hfold := foldl_addCapped (l := s.estimator.inbox) (n := s.estimator.processed)
    (by rw [h.sum]; exact hbound)
  have hprocessed : (s.estimator.tick now).processed =
      s.estimator.processed + s.estimator.inbox.sum := by
    rw [← hfold]
    simp only [Estimator.tick, Estimator.sample]
    split <;> rfl
  have hinbox : (s.estimator.tick now).inbox = [] := by
    simp only [Estimator.tick, Estimator.sample]
    split <;> rfl
  have htotal : (s.estimator.tick now).total = s.estimator.total := by
    simp only [Estimator.tick, Estimator.sample]
    split <;> rfl
  have hrecords : ∃ new, (s.estimator.tick now).records = s.estimator.records ++ new ∧
      new.Pairwise (fun x y => x.processed ≤ y.processed) ∧
      ∀ x ∈ new, x.processed = s.estimator.processed + s.estimator.inbox.sum ∧
        x.total = s.estimator.total ∧ x.percent ≤ 100 := by
    simp only [Estimator.tick, Estimator.sample]
    split
    next _ =>
      refine ⟨_, rfl, List.pairwise_singleton _ _, fun x hx => ?_⟩
      rw [List.mem_singleton.mp hx, ← hfold]
      exact ⟨rfl, rfl, ProgressRecord.percentOf_le _ _⟩
    next _ => exact ⟨[], (List.append_nil _).symm, .nil, nofun⟩
  obtain ⟨new, hnew, hpairwise, hmem⟩ := hrecords
  have htold : ({ s with estimator := s.estimator.tick now } : Session σ).told = s.told ++ new := by
    unfold Session.told
    rw [hnew, List.append_assoc]
  have halready := h.already
  constructor
  · exact h.measured
  · exact h.size_lt
  · exact h.effective
  · exact htotal.trans h.total
  · have hsum := h.sum
    show (s.estimator.tick now).processed + (s.estimator.tick now).inbox.sum = _
    rw [hprocessed, hinbox, List.sum_nil, Nat.add_zero]
    exact hsum
  · show s.plan.already ≤ (s.estimator.tick now).processed
    omega
  · rw [htold, List.pairwise_append]
    refine ⟨h.ascending, hpairwise, fun x hx y hy => ?_⟩
    have hle := (h.told x hx).2.1
    rw [(hmem y hy).1]
    omega
  · rw [htold]
    intro x hx
    show s.plan.already ≤ x.processed ∧ x.processed ≤ (s.estimator.tick now).processed ∧
      x.total = s.plan.size ∧ x.percent ≤ 100
    rcases List.mem_append.mp hx with hx | hx
    · obtain ⟨hlow, hhigh, hboth⟩ := h.told x hx
      exact ⟨hlow, by omega, hboth⟩
    · obtain ⟨heq, htotal, hpercent⟩ := hmem x hx
      exact ⟨by omega, by omega, htotal.trans h.total, hpercent⟩

variable [PageStore σ] {a : SessionAction} {r : Reader} {store₀ : σ}

theorem counted_step (h : s.Counted) (hintact : s.Intact r store₀) (hstep : Step J s a s') :
    s'.Counted := by
  cases hstep with
  | write i jitter tally job attempt result store pool hworker hjitter hwrite hpool =>
    cases result with
    | error f =>
      refine h.keep rfl rfl rfl rfl ?_ (.refl _)
      exact congrArg (s.estimator.inbox.sum + ·)
        (sentBytes_concat (s := s) (w := ⟨job.request.work, .error f⟩) rfl).symm
    | ok u =>
      refine h.keep rfl rfl rfl rfl ?_ (.refl _)
      refine Eq.trans ?_ (congrArg (s.estimator.inbox.sum + ·)
        (sentBytes_concat (s := s) (w := ⟨job.request.work, .ok u⟩) rfl).symm)
      show (s.estimator.inbox ++ [job.request.work.range.length]).sum + s.sentBytes =
        s.estimator.inbox.sum + (s.sentBytes + job.request.work.range.length)
      rw [List.sum_append, List.sum_singleton]
      omega
  | tick now hmeasured hstopping hended =>
    have hle := hintact.invariant.sentBytes_le hintact.nodup
    have heffective := h.effective
    have hsize := h.size_lt
    refine h.tick now ?_
    unfold Plan.already
    omega
  | tell f x hf hrange => exact h.keep rfl rfl rfl rfl rfl (told_sublist rfl rfl rfl)
  | forward record rest hrecords =>
    exact h.keep rfl rfl rfl rfl rfl (told_sublist (e := .progress record) rfl rfl hrecords)
  | consume e rest hwaiting =>
    refine h.keep rfl rfl rfl rfl rfl ?_
    unfold told
    rw [hwaiting]
    show ((s.taken ++ [e] ++ rest).filterMap _ ++ _).Sublist _
    rw [List.append_assoc]
    exact .refl _
  | conclude e last hphase hrecords => exact h.keep rfl rfl rfl rfl rfl (told_sublist rfl rfl rfl)
  | read | misread | offer | withhold | close | receive | send | refuse | shut | move | hear
  | stop => exact h.keep rfl rfl rfl rfl rfl (.refl _)

theorem Intact.counted_run {actions : List SessionAction} (h : s.Intact r store₀)
    (hcounted : s.Counted) (hrun : s.run actions = some s') : s'.Counted :=
  (run_induction (P := fun s => s.Intact r store₀ ∧ s.Counted)
    (fun _ _ _ hstep hs => ⟨intact_step hs.1 hstep, counted_step hs.2 hs.1 hstep⟩)
    (jittered_of_run hrun) hrun ⟨h, hcounted⟩).2

theorem counted_run {actions : List SessionAction} (h : s.Counted) (hsmooth : s.Smooth r store₀)
    (hrun : s.run actions = some s') : s'.Counted :=
  hsmooth.toIntact.counted_run h hrun

/-- The last record counts all that was acknowledged, and nothing told before goes beyond it. -/
theorem Counted.lastRecord (h : s.Counted) (hintact : s.Intact r store₀) :
    s.lastRecord.processed = s.plan.already + s.sentBytes ∧ s.lastRecord.total = s.plan.size ∧
      ∀ x ∈ s.told, x.processed ≤ s.lastRecord.processed := by
  have hle := hintact.invariant.sentBytes_le hintact.nodup
  have heffective := h.effective
  have hsize := h.size_lt
  have hsum := h.sum
  have hfold := foldl_addCapped (l := s.estimator.inbox) (n := s.estimator.processed) (by
    rw [hsum]
    unfold Plan.already
    omega)
  have hlast : s.lastRecord = s.estimator.stop := by
    unfold Session.lastRecord
    rw [h.measured]
    rfl
  have hprocessed : s.lastRecord.processed = s.plan.already + s.sentBytes := by
    rw [hlast, ← hsum, ← hfold]
    rfl
  refine ⟨hprocessed, ?_, fun x hx => ?_⟩
  · rw [hlast]
    exact h.total
  · have hx := (h.told x hx).2.1
    omega

end Session

/-- A session on a plan of an upload keeps its workers, if every wait can be held, and knows of
all that is acknowledged. -/
theorem Upload.intact_plan {σ : Type} [PageStore σ] {options : UploadOptions}
    (parallelism : Option Nat) {source : Source} {present : RangeSet} {store : σ} {p : Plan}
    {r : Reader} (hsize : source.size < 2 ^ 64) (hpresent : present.Canonical)
    (hinterval : 0 < options.interval.nanos) (hwaits : options.retry.Waits)
    (hplan : plan options source present store = (.ok p, r)) :
    p.Serves (layoutFor options store) present source ∧ r.source = source ∧
      (Session.start options (workers options parallelism) p r store).Intact r store ∧
      (Session.start options (workers options parallelism) p r store).Counted := by
  obtain ⟨hserves, hreader⟩ := plan_ok (Nat.le_of_lt hsize) hpresent hplan
  exact ⟨hserves, hreader, Session.intact_start hwaits hserves.nodup,
    Session.counted_start hinterval (hserves.size ▸ hsize) hserves.effective_le⟩

end ImageUpload
