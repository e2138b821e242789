import ImageUpload.Proofs.Failing
import ImageUpload.Proofs.Session.Exact
import ImageUpload.Session.Sync

/-
What becomes of a session whose source fails.

The producer stops at the first range that it cannot read, `Advanced`, so no request is made of
that range or of any after it.  Whatever the workers are at by then, the session ends with the
error of this range, and what it has sent is what was acknowledged, `Aborts`.
-/

namespace ImageUpload

theorem Reader.sweep_of_failsAt {r : Reader} {ranges : List ByteRange} {i : Nat} {range : ByteRange}
    {reason : String} (h : r.FailsAt ranges i reason) (hi : ranges[i]? = some range) :
    r.sweep ranges = .failed (.sourceRead range.first reason) := by
  induction h with
  | here hfails =>
    obtain ⟨r', hread⟩ := readRange_of_fails hfails
    injection hi with hi
    subst hi
    rw [sweep, hread]
    rfl
  | later hread h ih =>
    rw [sweep, hread]
    exact ih hi

namespace Session

variable {σ : Type} {s s' : Session σ} {r : Reader}

/-! ## The producer -/

/-- The ranges that do not remain to be read have been read in full, one after another. -/
def Advanced (r : Reader) (s : Session σ) : Prop :=
  ∃ done r₁, s.plan.ranges = done ++ s.stream.remaining ∧ r.Reads done r₁ ∧
    (s.stream.ended = none → s.stream.reader = r₁)

theorem advanced_start (options : UploadOptions) (parallelism : Nat) (plan : Plan) (r : Reader)
    (store : σ) : (start options parallelism plan r store).Advanced r :=
  ⟨[], r, rfl, .nil r, fun _ => rfl⟩

/-- The last event counts what the last record counts. -/
def Totals (s : Session σ) : Prop :=
  ∀ outcome bytes percent, .finished outcome bytes percent ∈ s.taken ++ s.waiting →
    bytes = s.bytesSent s.lastRecord

theorem totals_start (options : UploadOptions) (parallelism : Nat) (plan : Plan) (r : Reader)
    (store : σ) : (start options parallelism plan r store).Totals := by
  intro outcome bytes percent hmem
  change _ ∈ enqueue [] _ at hmem
  rcases mem_enqueue hmem with hmem | heq
  · exact nomatch hmem
  · exact nomatch heq

variable [PageStore σ] {a : SessionAction} {J : Float → Prop} {store₀ : σ} {i : Nat}
  {range : ByteRange} {reason : String}

theorem advanced_step (h : s.Advanced r) (hstep : Step J s a s') : s'.Advanced r := by
  obtain ⟨done, r₁, hplan, hreads, hreader⟩ := h
  cases hstep with
  | read range rest data reader hended hhand hremaining hread =>
    rw [hreader hended] at hread
    refine ⟨done ++ [range], reader, ?_, hreads.concat hread, fun _ => rfl⟩
    rw [hplan, hremaining]
    simp
  | misread | withhold | close => exact ⟨done, r₁, hplan, hreads, nofun⟩
  | offer | receive | send | refuse | shut | move | write | hear | tell | tick | forward
  | consume | stop | conclude => exact ⟨done, r₁, hplan, hreads, hreader⟩

/-- No request is made of the range that fails, nor of any after it. -/
theorem Intact.dispatched_le (h : s.Intact r store₀) (hadvanced : s.Advanced r)
    (hfails : r.FailsAt s.plan.ranges i reason) : s.dispatched ≤ i := by
  obtain ⟨done, r₁, hplan, hreads, -⟩ := hadvanced
  have hdone : done.length ≤ i := by
    rw [hplan] at hfails
    exact hfails.length_le hreads
  -- what is sent, what is held and what remains make up the plan, so what is sent has been read
  have horder := congrArg List.length (h.invariant.delivery.order h.cutShort)
  have hle := h.invariant.delivery.dispatched
  rw [hplan] at hle horder
  simp only [List.length_append, List.length_map, List.length_drop] at hle horder
  omega

/-! ## The verdict -/

theorem totals_step (h : s.Totals) (hphased : s.Phased) (hconcluded : s.Concluded)
    (hstep : Step J s a s') : s'.Totals := by
  by_cases hended : ∃ result, s.phase = .ended result
  · obtain ⟨result, hphase⟩ := hended
    obtain ⟨e, rest, -, hwaiting, rfl⟩ := ended_step hphased hphase hstep
    intro outcome bytes percent hmem
    refine h outcome bytes percent ?_
    change _ ∈ s.taken ++ [e] ++ rest at hmem
    rw [List.append_assoc] at hmem
    rw [hwaiting]
    exact hmem
  · have hno : ∀ result, s.phase ≠ .ended result := fun result hphase => hended ⟨result, hphase⟩
    intro outcome bytes percent hmem
    obtain ⟨e, last, hphase, -⟩ := concluded_step hconcluded hphased hstep outcome bytes percent hmem
    -- no other step than the last one brings a session to its end
    cases hstep with
    | conclude e last hstopping hrecords =>
      have hdone : s.Done e last := hphased.of_phase hstopping
      rcases List.mem_append.mp hmem with hmem | hmem
      · exact absurd (List.mem_append_left _ hmem) (hconcluded.not_finished hno outcome bytes percent)
      · rcases mem_enqueue hmem with hmem | heq
        · exact absurd (List.mem_append_right _ hmem)
            (hconcluded.not_finished hno outcome bytes percent)
        · injection heq with _ hbytes _
          rw [hbytes, hdone.last]
          rfl
    | receive | send | refuse | shut | stop => exact nomatch hphase
    | read | misread | offer | withhold | close | move | write | hear | tell | tick | forward
    | consume => exact absurd hphase (hno _)

/-- When the queue is closed, the producer has met with the failure. -/
theorem Intact.error_of_failsAt (h : s.Intact r store₀) (hfails : r.FailsAt s.plan.ranges i reason)
    (hi : s.plan.ranges[i]? = some range) {e : Option TransferError} (hc : s.Closed e) :
    e = some (.sourceRead range.first reason) := by
  have hsweep := h.invariant.delivery.sweep h.cutShort
  obtain ⟨f, hended⟩ := Option.isSome_iff_exists.mp hc.ended
  rw [Reader.sweep_of_failsAt hfails hi, hended] at hsweep
  have hf : f = .failed (.sourceRead range.first reason) := hsweep.symm
  rw [← hc.error, Stream.error?, hended, hf]

/-- The session has written none but these ranges, and their bytes are those of the source.
Nothing else touches the store, and no digest is recorded.  Its result is the error, and so says
the last event, with the lengths of the ranges that were acknowledged. -/
structure Aborts (source : Source) (store₀ : σ) (before : List ByteRange) (e : TransferError)
    (s : Session σ) : Prop where
  writes : ∀ w ∈ s.writes, w.chunk.range ∈ before ∧ w.chunk.Whole source
  replays : Replays store₀ s.writes s.store
  unrecorded : ∀ here, Sync.recordHash here (.ofSession s) = .ofSession s
  result : ∀ outcome, s.result? = some outcome → outcome = .error (.sourceRead e)
  nodup : s.acknowledged.Nodup
  finished : ∀ outcome bytes percent, .finished outcome bytes percent ∈ s.taken ++ s.waiting →
    outcome = .sourceFailed ∧ bytes = (s.acknowledged.map ByteRange.length).sum

theorem Intact.aborts (h : s.Intact r store₀) (hcounted : s.Counted) (hadvanced : s.Advanced r)
    (htotals : s.Totals) (hfails : r.FailsAt s.plan.ranges i reason)
    (hi : s.plan.ranges[i]? = some range) :
    s.Aborts r.source store₀ (s.plan.ranges.take i) (.sourceRead range.first reason) := by
  have hresult : ∀ outcome, s.result? = some outcome →
      outcome = .error (.sourceRead (.sourceRead range.first reason)) := by
    intro outcome houtcome
    obtain ⟨e, last, hdone, -, rfl⟩ := h.invariant.phased.of_phase (phase_of_result? houtcome)
    rw [h.error_of_failsAt hfails hi hdone.toClosed]
    rfl
  constructor
  · intro w hw
    have htake := List.take_subset_take_left s.plan.ranges (h.dispatched_le hadvanced hfails)
    exact ⟨htake (h.invariant.range_mem_of_write hw),
      h.invariant.delivery.whole w.chunk (List.mem_append_left _ (h.invariant.mem_sent_of_write hw))⟩
  · exact h.invariant.replays
  · intro here
    cases hoption : s.result? with
    | none => simp only [Sync.recordHash, UploadRun.ofSession, hoption]; rfl
    | some outcome =>
      rw [hresult outcome hoption] at hoption
      simp only [Sync.recordHash, UploadRun.ofSession, hoption]
      rfl
  · exact hresult
  · exact h.invariant.nodup_acknowledged h.nodup
  · intro outcome bytes percent hmem
    obtain ⟨e, last, hphase, houtcome, -⟩ := h.invariant.concluded outcome bytes percent hmem
    have hverdict := hresult _ (result?_of_phase hphase)
    refine ⟨?_, ?_⟩
    · cases e with
      | none => exact nomatch hverdict
      | some e => exact houtcome
    · rw [htotals outcome bytes percent hmem]
      show s.lastRecord.processed - s.plan.already = s.sentBytes
      rw [(hcounted.lastRecord h).1, Nat.add_sub_cancel_left]

end Session

/-! ## Uploads -/

namespace Upload

variable {σ : Type} [PageStore σ] {options : UploadOptions} {parallelism : Option Nat}
  {source : Source} {present : RangeSet} {store : σ} {p : Plan} {r : Reader} {i : Nat}
  {range : ByteRange} {reason : String}

theorem aborts_run {actions : List SessionAction} {s : Session σ}
    (hsize : source.size < 2 ^ 64) (hpresent : present.Canonical)
    (hinterval : 0 < options.interval.nanos) (hwaits : options.retry.Waits)
    (hplan : plan options source present store = (.ok p, r)) (hfails : r.FailsAt p.ranges i reason)
    (hi : p.ranges[i]? = some range)
    (hrun : (Session.start options (workers options parallelism) p r store).run actions = some s) :
    s.Intact r store ∧
      s.Aborts source store (p.ranges.take i) (.sourceRead range.first reason) := by
  obtain ⟨-, hreader, hintact, hcounted⟩ :=
    intact_plan parallelism hsize hpresent hinterval hwaits hplan
  have hJ := Session.jittered_of_run hrun
  obtain ⟨hp, -⟩ := Session.constants_run hJ hrun
  have hboth := Session.run_induction
    (P := fun s => s.Intact r store ∧ s.Advanced r ∧ s.Totals)
    (fun s a s' hstep hs => ⟨Session.intact_step hs.1 hstep, Session.advanced_step hs.2.1 hstep,
      Session.totals_step hs.2.2 hs.1.invariant.phased hs.1.invariant.concluded hstep⟩)
    hJ hrun ⟨hintact, Session.advanced_start _ _ _ _ _, Session.totals_start _ _ _ _ _⟩
  obtain ⟨hintact', hadvanced, htotals⟩ := hboth
  rw [← hp] at hfails hi ⊢
  rw [← hreader]
  exact ⟨hintact', hintact'.aborts (hintact.counted_run hcounted hrun) hadvanced htotals hfails hi⟩

/-- On the schedule the upload of a source that fails while it is streamed returns the error. -/
theorem run_aborts {watched : Bool} (hsize : source.size < 2 ^ 64) (hpresent : present.Canonical)
    (hinterval : 0 < options.interval.nanos) (hwaits : options.retry.Waits)
    (hfinite : options.retry.maxAttempts ≠ none)
    (hplan : plan options source present store = (.ok p, r)) (hfails : r.FailsAt p.ranges i reason)
    (hi : p.ranges[i]? = some range) :
    (run options watched parallelism source present true store).result =
      .error (.sourceRead (.sourceRead range.first reason)) := by
  obtain ⟨n, hn⟩ := Option.ne_none_iff_exists'.mp hfinite
  obtain ⟨-, -, hintact, -⟩ := intact_plan parallelism hsize hpresent hinterval hwaits hplan
  obtain ⟨outcome, houtcome⟩ := hintact.complete_ended watched (hintact.bounded_run hn)
    fun _ _ => by simp [Session.attemptLimit, hn]
  obtain ⟨actions, hrun⟩ := Session.drives_complete watched
    (Session.start options (workers options parallelism) p r store)
  obtain ⟨-, haborts⟩ := aborts_run hsize hpresent hinterval hwaits hplan hfails hi hrun
  have hresult := haborts.result outcome houtcome
  rw [run_of_plan hplan]
  simp only [UploadRun.ofSession, houtcome, Option.getD_some, hresult]

/-- A source that fails, or has no more bytes, ends the upload with an error that tells the start
of the range that was being read.  In the course of planning this is all that happens.  Later on
the ranges before this one may have been written, and the session comes to its end wherever its
workers are. -/
theorem source_failure_aborts (hsize : source.size < 2 ^ 64) (hpresent : present.Canonical)
    (hinterval : 0 < options.interval.nanos) (hwaits : options.retry.Waits)
    (hfinite : options.retry.maxAttempts ≠ none) :
    (∀ candidates i range reason,
      (layoutFor options store).locate source.size present = .ok candidates →
      (Reader.ofSource source).FailsAt candidates i reason → candidates[i]? = some range →
      ∀ drive, runBy drive options parallelism source present true store =
        .refused (.sourceRead (.sourceRead range.first reason)) store) ∧
    ∀ p r i range reason, plan options source present store = (.ok p, r) →
      r.FailsAt p.ranges i reason → p.ranges[i]? = some range →
      (∀ watched, (run options watched parallelism source present true store).result =
        .error (.sourceRead (.sourceRead range.first reason))) ∧
      ∀ actions s,
        (Session.start options (workers options parallelism) p r store).run actions = some s →
        (∃ more s' result, s.run more = some s' ∧ s'.result? = some result) ∧
          s.Aborts source store (p.ranges.take i) (.sourceRead range.first reason) := by
  refine ⟨fun candidates i range reason hlocate hfails hi drive => ?_,
    fun p r i range reason hplan hfails hi => ⟨fun watched => ?_, fun actions s hrun => ?_⟩⟩
  · obtain ⟨r', hreconcile⟩ := Reader.reconcile_of_failsAt hlocate hfails hi
    simp only [runBy, plan, if_true, hreconcile]
    rfl
  · exact run_aborts hsize hpresent hinterval hwaits hfinite hplan hfails hi
  · obtain ⟨n, hn⟩ := Option.ne_none_iff_exists'.mp hfinite
    obtain ⟨hintact, haborts⟩ := aborts_run hsize hpresent hinterval hwaits hplan hfails hi hrun
    obtain ⟨-, hretry⟩ := Session.constants_run (Session.jittered_of_run hrun) hrun
    exact ⟨hintact.exists_end (hintact.bounded_run (hretry ▸ hn)), haborts⟩

/-- An object of two pages of one byte each, and the ranges of its bytes. -/
def pairStore : MemoryStore :=
  ((MemoryStore.empty 1 1).create 2 .empty).2

def byteOfPair (i : Fin 2) : ByteRange :=
  ⟨i, i, Nat.le_refl i, by omega⟩

def firstByte : ByteRange := byteOfPair 0

def secondByte : ByteRange := byteOfPair 1

/-- A source that has one byte less than it reports. -/
def shortSource : Source :=
  { Source.ofBytes ⟨#[1]⟩ with size := 2 }

/-- Two bytes, with a failure in the fourth read.  The plan is drawn up with the first two
reads, and the second range is to be read again with the fourth. -/
def failingSource : Source :=
  { Source.ofBytes ⟨#[1, 2]⟩ with onRead := fun n => if n = 3 then .failed "away" else .ready }

theorem locate_pair :
    (layoutFor twiceOptions pairStore).locate 2 .empty = .ok [firstByte, secondByte] := by
  rfl

theorem failsAt_shortSource :
    Reader.FailsAt (.ofSource shortSource) [firstByte, secondByte] 1 "failed to fill whole buffer" := by
  have hfirst : (Reader.ofSource shortSource).readRange firstByte =
      (.ok ⟨#[1]⟩, ⟨shortSource, 1, 1, 1⟩) := rfl
  refine .later hfirst (.here ⟨by decide, .inr ?_⟩)
  exact ⟨⟨shortSource, 1, 2, 1⟩, ⟨shortSource, 1, 2, 2⟩, rfl, .dry (b := .empty) rfl rfl⟩

theorem plan_failingSource : plan twiceOptions failingSource .empty pairStore =
    (.ok ⟨2, [firstByte, secondByte]⟩, ⟨failingSource, 2, 2, 2⟩) := by
  have hfirst : (Reader.ofSource failingSource).readRange firstByte =
      (.ok ⟨#[1]⟩, ⟨failingSource, 1, 1, 1⟩) := rfl
  have hsecond : (Reader.mk failingSource 1 1 1).readRange secondByte =
      (.ok ⟨#[2]⟩, ⟨failingSource, 2, 2, 2⟩) := rfl
  have hlocate : (layoutFor twiceOptions pairStore).locate
      (Reader.ofSource failingSource).source.size .empty = .ok [firstByte, secondByte] := locate_pair
  have hbytes : isZeroed ⟨#[1]⟩ = false ∧ isZeroed ⟨#[2]⟩ = false := by decide +kernel
  simp only [plan, Reader.reconcile, hlocate, Reader.nonZero, hfirst, hsecond, hbytes,
    Bool.false_eq_true, if_false]
  rfl

theorem failsAt_failingSource :
    Reader.FailsAt ⟨failingSource, 2, 2, 2⟩ [firstByte, secondByte] 1 "away" := by
  have hfirst : (Reader.mk failingSource 2 2 2).readRange firstByte =
      (.ok ⟨#[1]⟩, ⟨failingSource, 1, 3, 3⟩) := rfl
  refine .later hfirst (.here ⟨by decide, .inr ?_⟩)
  exact ⟨⟨failingSource, 1, 4, 3⟩, ⟨failingSource, 1, 4, 4⟩, rfl, .failed rfl⟩

/-- The short source ends the planning at its second byte.  The other source fails while its first
byte is on its way: the worker has it in hand when the pool is torn down, writes it, and it is
counted. -/
theorem source_failure_aborts_pair :
    (∀ drive, runBy drive twiceOptions none shortSource .empty true pairStore =
      .refused (.sourceRead (.sourceRead 1 "failed to fill whole buffer")) pairStore) ∧
    ∃ s, (Session.start twiceOptions 1 ⟨2, [firstByte, secondByte]⟩ ⟨failingSource, 2, 2, 2⟩
        pairStore).run [.read, .offer, .receive, .send, .take 0, .read, .shut, .write 0 1, .leave 0,
          .stop, .conclude] = some s ∧
      s.result? = some (.error (.sourceRead (.sourceRead 1 "away"))) ∧
      s.Aborts failingSource pairStore [firstByte] (.sourceRead 1 "away") ∧
      ∃ percent, .finished .sourceFailed 1 percent ∈ s.taken ++ s.waiting := by
  have hended : ((Session.start twiceOptions 1 ⟨2, [firstByte, secondByte]⟩
      ⟨failingSource, 2, 2, 2⟩ pairStore).run [.read, .offer, .receive, .send, .take 0, .read, .shut,
        .write 0 1, .leave 0, .stop, .conclude]).map
          (fun s => (s.result?.isSome, s.acknowledged,
            (s.taken ++ s.waiting).any (· matches .finished ..))) = some (true, [firstByte], true) := by
    decide +kernel
  obtain ⟨s, hrun, hparts⟩ := Option.map_eq_some_iff.mp hended
  injection hparts with hsome hparts
  injection hparts with hacknowledged hany
  obtain ⟨outcome, houtcome⟩ := Option.isSome_iff_exists.mp hsome
  have hwaits : twiceOptions.retry.Waits := RetryPolicy.waits_of_maxDelay rfl
  have hshort := (@source_failure_aborts _ _ twiceOptions none shortSource .empty pairStore (by decide)
    RangeSet.canonical_empty (by decide) hwaits nofun).1
  have hfailing := (@source_failure_aborts _ _ twiceOptions none failingSource .empty pairStore
    (by decide) RangeSet.canonical_empty (by decide) hwaits nofun).2
  obtain ⟨-, haborts⟩ := (hfailing _ _ 1 secondByte "away" plan_failingSource failsAt_failingSource
    rfl).2 _ s hrun
  refine ⟨hshort _ 1 secondByte _ locate_pair failsAt_shortSource rfl, s, hrun, ?_, haborts, ?_⟩
  · rw [houtcome, haborts.result outcome houtcome]
    rfl
  · obtain ⟨e, hmem, he⟩ := List.any_eq_true.mp hany
    cases e with
    | finished outcome bytes percent =>
      obtain ⟨rfl, hbytes⟩ := haborts.finished outcome bytes percent hmem
      rw [hacknowledged] at hbytes
      rw [hbytes] at hmem
      exact ⟨percent, hmem⟩
    | planned | progress | rangeFailed => exact nomatch he

end Upload
end ImageUpload
