import ImageUpload.Proofs.Retry
import ImageUpload.Proofs.Pool.Record
import ImageUpload.Proofs.Pool.Report
import ImageUpload.Proofs.Pool.Staff

/-
What a script decides.

If the attempts at each request come to what a script says, `Pool.Follows`, and no worker
dies, then a request is settled by the last of its attempts and nothing else, and the report
and the published failures of a pool tell of these settlements and of no others:
`Reached.tells`.  A worker dies over a panic that no attempt contains, or over a wait that no
duration can hold, and for no other cause: `Reached.not_dead`.
-/

namespace ImageUpload

variable {ω ε : Type}

/-! ## Requests -/

/-- What the last attempt at a request makes of it. -/
def Fate.ofOutcome : Outcome ε → Fate ε
  | .done => .completed
  | .failed e => .failed (.failed e)
  | .panicked payload => .failed (.panicked payload.message)
  | .crashed => .lost

namespace Request

/-- All attempts before this one call for another. -/
structure Reaches (r : Request ω ε) (script : Nat → Outcome ε) (attempt : Nat) : Prop where
  pos : 0 < attempt
  before : ∀ n, 0 < n → n < attempt → r.Repeats n (script n)

/-- Neither the work nor the judgement of an error panics outside of an attempt. -/
def Contained (r : Request ω ε) (script : Nat → Outcome ε) : Prop :=
  ∀ n, r.Reaches script n →
    script n ≠ .crashed ∧ ∀ e, script n = .failed e → r.retries e ≠ none

/-- There is a duration for each wait that may follow an attempt. -/
def Measured (r : Request ω ε) (script : Nat → Outcome ε) : Prop :=
  ∀ n, r.Reaches script n → r.Repeats n (script n) → ∀ jitter, Jittered jitter →
    r.policy.delay? n jitter ≠ none

/-- There is no other attempt after one that came to this, as it is done, has panicked, has
failed with an error that is refused, or was the last one allowed. -/
def Final (r : Request ω ε) (attempt : Nat) : Outcome ε → Prop
  | .failed e => r.retries e = some false ∨ r.policy.allowsRetry attempt = false
  | _ => True

/-- The first attempt that is final. -/
structure LastAttempt (r : Request ω ε) (script : Nat → Outcome ε) (k : Nat) : Prop where
  pos : 0 < k
  final : r.Final k (script k)
  first : ∀ n, 0 < n → n < k → ¬ r.Final n (script n)

variable {r : Request ω ε} {script : Nat → Outcome ε} {attempt k : Nat} {o : Outcome ε}

theorem not_final_of_repeats (h : r.Repeats attempt o) : ¬ r.Final attempt o := by
  obtain ⟨e, rfl, hr, hallows⟩ := h
  rintro (hfalse | hfalse)
  · exact nomatch hr.symm.trans hfalse
  · exact nomatch hallows.symm.trans hfalse

theorem contained_of_forall (hran : ∀ n, script n ≠ .crashed) (hjudged : ∀ e, r.retries e ≠ none) :
    r.Contained script :=
  fun n _ => ⟨hran n, fun e _ => hjudged e⟩

theorem measured_of_waits (h : r.policy.Waits) : r.Measured script := by
  rintro n hn ⟨e, -, -, hallows⟩ jitter hjitter
  exact h n jitter hn.pos hallows hjitter

/-- No attempt comes after the last one. -/
theorem LastAttempt.le_of_reaches (h : r.LastAttempt script k) {n : Nat}
    (hn : r.Reaches script n) : n ≤ k := by
  refine Nat.not_lt.mp fun hlt => ?_
  exact not_final_of_repeats (hn.before k h.pos hlt) h.final

theorem LastAttempt.eq_of_final (h : r.LastAttempt script k) {n : Nat}
    (hn : r.Reaches script n) (hfinal : r.Final n (script n)) : n = k := by
  rcases Nat.lt_or_eq_of_le (h.le_of_reaches hn) with hlt | heq
  · exact absurd hfinal (h.first n hn.pos hlt)
  · exact heq

/-- A request that is not lost meets with what its last attempt came to. -/
theorem Ends.fate_eq {J : Float → Prop} {cancelled : Bool} {fate : Fate ε}
    (h : r.Ends J cancelled attempt o fate) (hkept : fate ≠ .lost) :
    fate = .ofOutcome o ∧ (cancelled = false → r.Final attempt o) := by
  cases h with
  | done => exact ⟨rfl, fun _ => trivial⟩
  | panicked payload => exact ⟨rfl, fun _ => trivial⟩
  | crashed | unjudged | overslept => exact absurd rfl hkept
  | final e h => exact ⟨rfl, fun _ => .inl h⟩
  | exhausted e h hattempt => exact ⟨rfl, fun _ => .inr hattempt⟩
  | abandoned e h hcancelled => exact ⟨rfl, fun hfalse => nomatch hcancelled.symm.trans hfalse⟩

/-- What a worker survives does not lose its request. -/
theorem Ends.kept {cancelled : Bool} {fate : Fate ε} (hcontained : r.Contained script)
    (hmeasured : r.Measured script) (hreaches : r.Reaches script attempt)
    (h : r.Ends Jittered cancelled attempt (script attempt) fate) : fate ≠ .lost := by
  obtain ⟨hran, hjudged⟩ := hcontained attempt hreaches
  have hwaits := hmeasured attempt hreaches
  rintro rfl
  generalize script attempt = o at h hran hjudged hwaits
  cases h with
  | crashed => exact hran rfl
  | unjudged e hnone => exact hjudged e rfl hnone
  | overslept e jitter hrepeats hjitter hdelay => exact hwaits hrepeats jitter hjitter hdelay

end Request

/-! ## Pools -/

namespace Pool

variable {p p' : Pool ω ε} {sent : List (Request ω ε)} {desks : List (Desk ω ε)}
  {script : Nat → Nat → Outcome ε}

theorem jittered_of_finish {i : Nat} {o : Outcome ε} {jitter : Float}
    (hp : p.finish i o jitter = some p') : Jittered jitter := by
  unfold finish at hp
  split at hp
  next tally job attempt hw =>
    split at hp
    next hjitter => exact hjitter
    next _ => exact nomatch hp
  next _ => exact nomatch hp

/-- Every attempt so far came to what the script of its request says. -/
def Follows (script : Nat → Nat → Outcome ε) (p : Pool ω ε) : Prop :=
  ∀ i ticket attempt o, .ended i ticket attempt o ∈ p.history → o = script ticket attempt

theorem mem_attempts {i t n j : Nat} {outcomes : List (Outcome ε)} {o : Outcome ε}
    (h : outcomes[j]? = some o) : .ended i t (n + j) o ∈ attempts i t n outcomes := by
  induction outcomes generalizing n j with
  | nil => exact nomatch h
  | cons a rest ih =>
    refine List.mem_cons_of_mem _ ?_
    cases j with
    | zero =>
      injection h with h
      exact h ▸ List.mem_cons_self
    | succ j =>
      refine List.mem_cons_of_mem _ ?_
      rw [← Nat.add_assoc, Nat.add_right_comm]
      exact ih h

theorem Recorded.exists_attempts (h : p.Recorded) (t : Nat) :
    ∃ i tail, p.eventsOf t = attempts i t 1 (p.outcomes t) ++ tail ∧
      ∀ e ∈ tail, e.isEnd = false := by
  obtain ⟨i, hended | ⟨tally, job, attempt, -, -, hbegan⟩⟩ := h.eventsOf_cases t
  · exact ⟨i, [], hended.trans (List.append_nil _).symm, nofun⟩
  · exact ⟨i, _, hbegan, fun e he => List.mem_singleton.mp he ▸ rfl⟩

theorem Follows.outcome (h : p.Follows script) (hrec : p.Recorded) {t j : Nat} {o : Outcome ε}
    (ho : (p.outcomes t)[j]? = some o) : o = script t (j + 1) := by
  obtain ⟨i, tail, hevents, -⟩ := hrec.exists_attempts t
  have hmem : .ended i t (1 + j) o ∈ p.eventsOf t :=
    hevents ▸ List.mem_append_left _ (mem_attempts ho)
  rw [Nat.add_comm] at hmem
  exact h i t (j + 1) o (List.mem_filter.mp hmem).1

theorem Follows.outcomes_eq (h : p.Follows script) (hrec : p.Recorded) (t : Nat) :
    p.outcomes t = (List.range' 1 (p.outcomes t).length).map (script t) := by
  refine List.ext_getElem (by simp) fun j hj _ => ?_
  rw [List.getElem_map, List.getElem_range', Nat.one_mul, Nat.add_comm]
  exact h.outcome hrec (List.getElem?_eq_getElem hj)

theorem Follows.reaches (h : p.Follows script) (hrec : p.Recorded) {job : Job ω ε}
    {before after : List (Outcome ε)} (houtcomes : p.outcomes job.ticket = before ++ after)
    (htried : job.request.Tried before) :
    job.request.Reaches (script job.ticket) (before.length + 1) := by
  refine ⟨Nat.succ_pos _, fun n hpos hlt => ?_⟩
  obtain ⟨j, rfl⟩ : ∃ j, n = j + 1 := ⟨n - 1, by omega⟩
  have hj : before[j]? = some before[j] := List.getElem?_eq_getElem (by omega)
  have ho : (p.outcomes job.ticket)[j]? = some before[j] := by
    rw [houtcomes, List.getElem?_append_left (by omega), hj]
  rw [← h.outcome hrec ho]
  exact htried j _ hj

/-- A pool in the course of a run by the script, with the requests sent to it so far. -/
structure Reached (script : Nat → Nat → Outcome ε) (sent : List (Request ω ε)) (p : Pool ω ε) :
    Prop where
  accounts : ∃ desks, p.Accounts Jittered sent desks
  recorded : p.Recorded
  staffed : p.Staffed
  follows : p.Follows script

theorem reached_start (script : Nat → Nat → Outcome ε) (parallelism capacity : Nat) :
    (start parallelism capacity : Pool ω ε).Reached script [] :=
  ⟨⟨_, accounts_start parallelism capacity⟩, recorded_start parallelism capacity,
    staffed_start parallelism capacity, fun _ _ _ _ => nofun⟩

theorem Follows.of_history (h : p'.Follows script) {new : List (PoolEvent ε)}
    (hnew : p'.history = p.history ++ new) : p.Follows script := by
  intro i ticket attempt o hmem
  refine h i ticket attempt o ?_
  rw [hnew]
  exact List.mem_append_left _ hmem

theorem reached_act {a : PoolAction ω ε} (h : p.Reached script sent) (hp : p.act a = some p')
    (hfollows : p'.Follows script) : p'.Reached script (sent ++ a.sends) := by
  obtain ⟨desks, hacc⟩ := h.accounts
  have hJ : a.Draws Jittered := by
    cases a with
    | finish i o jitter => exact jittered_of_finish hp
    | send | close | tearDown | take | wake | abandon | leave => trivial
  exact ⟨accounts_act hacc hJ hp, recorded_act h.recorded hacc hp, staffed_act h.staffed hp, hfollows⟩

theorem reached_run {actions : List (PoolAction ω ε)} (h : p.Reached script sent)
    (hp : p.run actions = some p') (hfollows : p'.Follows script) :
    p'.Reached script (sent ++ actions.flatMap PoolAction.sends) := by
  induction actions generalizing p sent with
  | nil =>
    injection hp with hp
    rw [List.flatMap_nil, List.append_nil]
    exact hp ▸ h
  | cons a rest ih =>
    obtain ⟨q, hq, hrest⟩ := Option.bind_eq_some_iff.mp hp
    obtain ⟨new, hnew, -⟩ := history_run hrest
    rw [List.flatMap_cons, ← List.append_assoc]
    exact ih (reached_act h hq (hfollows.of_history hnew)) hrest

/-- What the attempts at a request so far would make of it. -/
def settlement? (p : Pool ω ε) (job : Job ω ε) : Option (Settlement ω ε) :=
  (p.outcomes job.ticket).getLast?.map fun o =>
    ⟨job, (p.outcomes job.ticket).length, .ofOutcome o⟩

def settlements (p : Pool ω ε) (sent : List (Request ω ε)) : List (Settlement ω ε) :=
  (numbered sent).filterMap p.settlement?

theorem Accounts.sent_of_settled (h : p.Accounts J sent desks) {d : Desk ω ε} (hd : d ∈ desks)
    {x : Settlement ω ε} (hx : x ∈ d.settled) : sent[x.job.ticket]? = some x.job.request := by
  refine mem_numbered.mp (h.jobs.mem_iff.mp (List.mem_append_right _ ?_))
  exact List.mem_flatMap.mpr ⟨d, hd, List.mem_append_right _ (List.mem_map_of_mem hx)⟩

/-- A settled request has ended with the attempt that its script has at this place. -/
theorem Accounts.scripted (h : p.Accounts J sent desks) (hrec : p.Recorded)
    (hfollows : p.Follows script) {d : Desk ω ε} (hd : d ∈ desks) {x : Settlement ω ε}
    (hx : x ∈ d.settled) :
    x.job.request.Reaches (script x.job.ticket) x.attempts ∧
      x.job.request.Ends J p.cancelled x.attempts (script x.job.ticket x.attempts) x.fate ∧
      p.settlement? x.job =
        some ⟨x.job, x.attempts, .ofOutcome (script x.job.ticket x.attempts)⟩ := by
  obtain ⟨before, o, houtcomes, hattempts, htried, hends⟩ := h.settled d hd x hx
  have hreaches := hfollows.reaches hrec houtcomes htried
  rw [hattempts] at hreaches
  have ho : o = script x.job.ticket x.attempts := by
    rw [← hattempts]
    refine hfollows.outcome hrec ?_
    rw [houtcomes]
    exact List.getElem?_concat_length
  refine ⟨hreaches, ho ▸ hends, ?_⟩
  unfold settlement?
  rw [houtcomes, List.getLast?_concat, List.length_append, List.length_singleton, hattempts,
    Option.map_some, ho]

/-! ## Deaths -/

theorem Accounts.allReported_eq (h : p.Accounts J sent desks) (hdead : .dead ∉ p.workers) :
    Desk.allReported desks = Desk.allSettled desks := by
  refine Desk.allReported_eq fun d hd => Bool.eq_false_iff.mpr fun hdied => hdead ?_
  rw [h.workers, ← eq_dead_of_isDead hdied]
  exact List.mem_map_of_mem hd

/-- If nobody died, no request is lost. -/
theorem Accounts.kept_of_not_dead (h : p.Accounts J sent desks) (hgone : p.gone = true)
    (hdead : .dead ∉ p.workers) {x : Settlement ω ε} (hx : x ∈ Desk.allSettled desks) :
    x.fate ≠ .lost :=
  h.reported_ne_lost hgone x (h.allReported_eq hdead ▸ hx)

theorem lostWorkers_eq_zero_iff : p.report.lostWorkers = 0 ↔ .dead ∉ p.workers := by
  show p.workers.countP Worker.isDead = 0 ↔ _
  rw [List.countP_eq_zero]
  constructor
  · exact fun h hmem => h _ hmem rfl
  · intro h w hw hdied
    exact h (eq_dead_of_isDead hdied ▸ hw)

/-- Nobody dies if no panic escapes an attempt and a duration holds each wait. -/
theorem Reached.not_dead (h : p.Reached script sent)
    (hcontained : ∀ (t : Nat) (r : Request ω ε), sent[t]? = some r → r.Contained (script t))
    (hmeasured : ∀ (t : Nat) (r : Request ω ε), sent[t]? = some r → r.Measured (script t)) :
    .dead ∉ p.workers := by
  obtain ⟨desks, hacc⟩ := h.accounts
  refine hacc.not_dead fun d hd x hx => ?_
  obtain ⟨hreaches, hends, -⟩ := hacc.scripted h.recorded h.follows hd hx
  have hsent := hacc.sent_of_settled hd hx
  exact hends.kept (hcontained _ _ hsent) (hmeasured _ _ hsent) hreaches

/-! ## Without deaths -/

/-- The report and the published failures of a pool tell of these settlements only. -/
structure Tells (p : Pool ω ε) (settled : List (Settlement ω ε)) : Prop where
  completed : p.report.completed = settled.countP Settlement.isCompleted
  failures : p.failures.Perm (settled.filterMap Settlement.failure?)
  failed : p.report.failed.Perm (p.failures.map Failure.id)
  counted : p.report.completed + p.report.failed.length = settled.length
  whole : p.report.lostWorkers = 0

theorem settlement?_of_mem_queue (h : p.Accounts J sent desks) {job : Job ω ε}
    (hjob : job ∈ p.queue) : p.settlement? job = none := by
  unfold settlement?
  rw [h.outcomes_of_mem_queue hjob]
  rfl

theorem isSome_settlement?_of_settled (h : p.Accounts J sent desks) {x : Settlement ω ε}
    (hx : x ∈ Desk.allSettled desks) : (p.settlement? x.job).isSome = true := by
  obtain ⟨d, hd, hxd⟩ := List.mem_flatMap.mp hx
  obtain ⟨before, o, houtcomes, -⟩ := h.settled d hd x hxd
  unfold settlement?
  rw [houtcomes, List.getLast?_concat]
  rfl

/-- What was attempted is what the desks have settled, those of the dead included. -/
theorem Accounts.settlements_perm (h : p.Accounts J sent desks) (hgone : p.gone = true) :
    (((Desk.allSettled desks).map Settlement.job).filterMap p.settlement?).Perm
      (p.settlements sent) := by
  have hjobs := (h.jobs_of_gone hgone).filterMap p.settlement?
  have hqueue : p.queue.filterMap p.settlement? = [] :=
    List.filterMap_eq_nil_iff.mpr fun job hjob => settlement?_of_mem_queue h hjob
  rw [List.filterMap_append, hqueue] at hjobs
  exact hjobs

/-- For each worker that died, the report misses a request that was attempted. -/
theorem Accounts.report_add_lost_le (h : p.Accounts J sent desks) (hgone : p.gone = true) :
    p.report.completed + p.report.failed.length + p.report.lostWorkers ≤
      (p.settlements sent).length := by
  have hlength : (p.settlements sent).length = (Desk.allSettled desks).length := by
    rw [← (h.settlements_perm hgone).length_eq, List.filterMap_map,
      List.length_filterMap_eq_countP, List.countP_eq_length]
    exact fun x hx => isSome_settlement?_of_settled h hx
  have hlost : p.report.lostWorkers = desks.countP fun d => d.worker.isDead := by
    show p.workers.countP Worker.isDead = _
    rw [h.workers, List.countP_map]
    rfl
  rw [h.report_size hgone, hlength, hlost]
  exact Desk.length_allReported_le h.agrees

/-- The request was settled by the attempt that its script has at this place. -/
structure Decides (p : Pool ω ε) (script : Nat → Nat → Outcome ε) (x : Settlement ω ε) :
    Prop where
  reaches : x.job.request.Reaches (script x.job.ticket) x.attempts
  fate : x.fate = .ofOutcome (script x.job.ticket x.attempts)
  found : p.settlement? x.job = some x
  final : p.cancelled = false → x.job.request.Final x.attempts (script x.job.ticket x.attempts)

theorem Accounts.decides (h : p.Accounts J sent desks) (hrec : p.Recorded)
    (hfollows : p.Follows script) (hgone : p.gone = true) (hdead : .dead ∉ p.workers)
    {x : Settlement ω ε} (hx : x ∈ Desk.allSettled desks) : p.Decides script x := by
  obtain ⟨d, hd, hxd⟩ := List.mem_flatMap.mp hx
  obtain ⟨hreaches, hends, hfound⟩ := h.scripted hrec hfollows hd hxd
  obtain ⟨hfate, hfinal⟩ := hends.fate_eq (h.kept_of_not_dead hgone hdead hx)
  refine ⟨hreaches, hfate, ?_, hfinal⟩
  rw [hfound, ← hfate]

theorem Decides.outcomes_eq {x : Settlement ω ε} (h : p.Decides script x) (hrec : p.Recorded)
    (hfollows : p.Follows script) :
    p.outcomes x.job.ticket = (List.range' 1 x.attempts).map (script x.job.ticket) := by
  obtain ⟨o, -, hx⟩ := Option.map_eq_some_iff.mp h.found
  have hlength : (p.outcomes x.job.ticket).length = x.attempts := congrArg Settlement.attempts hx
  rw [hfollows.outcomes_eq hrec x.job.ticket, hlength]

/-- If nobody died, the report of a pool without workers tells of all the requests that were
attempted. -/
theorem Reached.tells (h : p.Reached script sent) (hgone : p.gone = true)
    (hdead : .dead ∉ p.workers) : p.Tells (p.settlements sent) := by
  obtain ⟨desks, hacc⟩ := h.accounts
  have hreported := hacc.allReported_eq hdead
  have hperm : (Desk.allSettled desks).Perm (p.settlements sent) := by
    have hfound : (Desk.allSettled desks).filterMap (p.settlement? ∘ Settlement.job) =
        Desk.allSettled desks := by
      refine (List.filterMap_congr fun x hx => ?_).trans List.filterMap_some
      exact (hacc.decides h.recorded h.follows hgone hdead hx).found
    have hsettled := hacc.settlements_perm hgone
    rw [List.filterMap_map, hfound] at hsettled
    exact hsettled
  have hreport := hacc.report_eq hgone
  rw [hreported] at hreport
  injection hreport with hcompleted hfailed
  have hfailures : p.failures.Perm ((Desk.allSettled desks).filterMap Settlement.failure?) := by
    unfold Desk.allSettled
    rw [List.filterMap_flatMap]
    exact hacc.failures
  refine ⟨?_, hfailures.trans (hperm.filterMap _), ?_, ?_, lostWorkers_eq_zero_iff.mpr hdead⟩
  · rw [← hcompleted]
    exact hperm.countP_eq _
  · rw [← hfailed]
    exact (hfailures.map _).symm
  · rw [hacc.report_size hgone, hreported]
    exact hperm.length_eq

end Pool
end ImageUpload
