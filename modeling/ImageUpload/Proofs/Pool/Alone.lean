import ImageUpload.Proofs.Pool.Effort

/-
A pool makes of each request what a worker of its own would.

Tried alone, a request takes its attempts up to the first that is final, and that one
settles it.  By `computes_alone` a pool comes to the same for each of its requests, and its
report tells so, whatever the number of workers, the room in the queue and the order in
which things happen.
-/

namespace ImageUpload

variable {ω ε : Type}

/-- What becomes of a request whose last attempt has this number. -/
def Settlement.alone (script : Nat → Nat → Outcome ε) (k : Nat → Nat) (job : Job ω ε) :
    Settlement ω ε :=
  ⟨job, k job.ticket, .ofOutcome (script job.ticket (k job.ticket))⟩

namespace Pool

variable {p p' : Pool ω ε} {requests sent : List (Request ω ε)}
  {script : Nat → Nat → Outcome ε} {k : Nat → Nat}

theorem forall_sent {rest : List (Request ω ε)} {P : Nat → Request ω ε → Prop}
    (hsent : sent ++ rest = requests) (h : ∀ (t : Nat) (r : Request ω ε), requests[t]? = some r → P t r)
    (t : Nat) (r : Request ω ε) (hr : sent[t]? = some r) : P t r := by
  refine h t r ?_
  rw [← hsent, List.getElem?_append_left (List.getElem?_eq_some_iff.mp hr).1]
  exact hr

/-! ## The end -/

/-- Without a teardown each request is settled by the last of its attempts. -/
theorem Reached.settlement?_eq (h : p.Reached script sent) (hgone : p.gone = true)
    (hcancelled : p.cancelled = false) (hdead : .dead ∉ p.workers)
    (hlast : ∀ (t : Nat) (r : Request ω ε), sent[t]? = some r → r.LastAttempt (script t) (k t))
    (job : Job ω ε) (hjob : job ∈ numbered sent) :
    p.settlement? job = some (.alone script k job) := by
  obtain ⟨desks, hacc⟩ := h.accounts
  have hjobs := hacc.jobs_of_gone hgone
  rw [(h.staffed.closed_of_gone hgone hcancelled hdead).2, List.nil_append] at hjobs
  obtain ⟨x, hx, rfl⟩ := List.mem_map.mp (hjobs.mem_iff.mpr hjob)
  have hdecides := hacc.decides h.recorded h.follows hgone hdead hx
  have hattempts : x.attempts = k x.job.ticket :=
    (hlast _ _ (mem_numbered.mp hjob)).eq_of_final hdecides.reaches (hdecides.final hcancelled)
  rw [hdecides.found]
  unfold Settlement.alone
  rw [← hattempts, ← hdecides.fate]

theorem Reached.settlements_eq (h : p.Reached script sent) (hgone : p.gone = true)
    (hcancelled : p.cancelled = false) (hdead : .dead ∉ p.workers)
    (hlast : ∀ (t : Nat) (r : Request ω ε), sent[t]? = some r → r.LastAttempt (script t) (k t)) :
    p.settlements sent = (numbered sent).map (.alone script k) := by
  unfold settlements
  rw [List.filterMap_congr fun job hjob => h.settlement?_eq hgone hcancelled hdead hlast job hjob]
  exact congrFun (List.filterMap_eq_map ..) _

/-- One worker makes all of the attempts at a request. -/
theorem Reached.eventsOf_eq (h : p.Reached script sent) (hgone : p.gone = true)
    (hcancelled : p.cancelled = false) (hdead : .dead ∉ p.workers)
    (hlast : ∀ (t : Nat) (r : Request ω ε), sent[t]? = some r → r.LastAttempt (script t) (k t))
    {t : Nat} (ht : t < sent.length) :
    ∃ i, p.eventsOf t = attempts i t 1 ((List.range' 1 (k t)).map (script t)) := by
  obtain ⟨i, hevents⟩ := h.recorded.rest t (unheld_of_gone hgone t)
  refine ⟨i, hevents.trans (congrArg _ ?_)⟩
  have hfound := h.settlement?_eq hgone hcancelled hdead hlast ⟨t, sent[t]⟩
    (mem_numbered.mpr (List.getElem?_eq_getElem ht))
  obtain ⟨o, -, hx⟩ := Option.map_eq_some_iff.mp hfound
  have hlength : (p.outcomes t).length = k t := congrArg Settlement.attempts hx
  rw [h.follows.outcomes_eq h.recorded t, hlength]

/-! ## The way there -/

/-- A pool on its way through these requests. -/
structure Underway (script : Nat → Nat → Outcome ε) (requests : List (Request ω ε)) (p : Pool ω ε)
    (sent : List (Request ω ε)) : Prop where
  reached : p.Reached script sent
  not_cancelled : p.cancelled = false
  unsent : ∃ rest, sent ++ rest = requests ∧ (p.closed = true → rest = [])

/-- What is left to do for the workers and for the sender. -/
def toil (requests : List (Request ω ε)) (k : Nat → Nat) (p : Pool ω ε)
    (sent : List (Request ω ε)) : Nat :=
  p.effort (fun job => k job.ticket) +
    (((numbered requests).drop sent.length).map fun job => 2 * k job.ticket + 4).sum +
    if p.closed then 0 else 1

/-- Nobody waits for an attempt after the last one. -/
theorem Reached.attempt_lt (h : p.Reached script sent)
    (hlast : ∀ (t : Nat) (r : Request ω ε), sent[t]? = some r → r.LastAttempt (script t) (k t))
    {i : Nat} {tally : Tally} {job : Job ω ε} {attempt : Nat} {e : ε} {delay : Duration}
    (hw : p.workers[i]? = some (.waiting tally job attempt e delay)) : attempt < k job.ticket := by
  obtain ⟨desks, hacc⟩ := h.accounts
  obtain ⟨settled, -, hattempt, htried, -⟩ := hacc.agrees_at hw
  have hreaches := h.follows.reaches h.recorded (List.append_nil _).symm htried
  rw [hattempt] at hreaches
  have hjob := hacc.sent_of_held hw (List.mem_singleton.mpr rfl)
  exact (hlast _ _ hjob).le_of_reaches hreaches

theorem drop_numbered (sent rest : List (Request ω ε)) (r : Request ω ε) :
    (numbered (sent ++ r :: rest)).drop sent.length =
      ⟨sent.length, r⟩ :: (numbered (sent ++ r :: rest)).drop (sent.length + 1) := by
  have hlt : sent.length < (numbered (sent ++ r :: rest)).length := by
    rw [length_numbered, List.length_append, List.length_cons]
    omega
  rw [List.drop_eq_getElem_cons hlt]
  congr 1
  simp [numbered]

/-- The sender sends the next request, or else closes the queue. -/
theorem Underway.exists_sending (h : p.Underway script requests sent) (hgone : p.gone = false)
    (hq : p.queue = []) (hopen : p.closed = false) :
    ∃ a p', p.act a = some p' ∧ p'.Underway script requests (sent ++ a.sends) ∧
      p'.toil requests k (sent ++ a.sends) < p.toil requests k sent := by
  obtain ⟨rest, hrest, -⟩ := h.unsent
  have hreached : ∀ {a : PoolAction ω ε} {p' : Pool ω ε}, p.act a = some p' →
      p'.history = p.history → p'.Reached script (sent ++ a.sends) := by
    intro a p' hp hhistory
    refine reached_act h.reached hp fun i ticket attempt o hmem => ?_
    exact h.reached.follows i ticket attempt o (hhistory ▸ hmem)
  cases rest with
  | nil =>
    have hsent : sent ++ (PoolAction.close : PoolAction ω ε).sends = sent := List.append_nil _
    refine ⟨.close, { p with closed := true }, rfl, ⟨hreached rfl rfl, h.not_cancelled, [], ?_,
      fun _ => rfl⟩, ?_⟩
    · rw [hsent]
      exact hrest
    · rw [hsent]
      unfold toil
      rw [hopen]
      exact Nat.lt_succ_self _
  | cons r rest =>
    have hsend : p.send r = some { p with
        queue := p.queue ++ [⟨p.accepted, r⟩], accepted := p.accepted + 1 } := by
      refine if_neg ?_
      have hroom := h.reached.staffed.capacity
      simp only [hopen, hgone, hq, List.length_nil, Bool.or_false, Bool.false_or,
        decide_eq_true_eq]
      omega
    refine ⟨.send r, _, hsend, ⟨hreached hsend rfl, h.not_cancelled, rest, ?_, ?_⟩, ?_⟩
    · rw [← hrest]
      exact List.append_assoc ..
    · exact fun hclosed => nomatch hopen.symm.trans hclosed
    · obtain ⟨desks, hacc⟩ := h.reached.accounts
      subst hrest
      unfold toil effort
      rw [drop_numbered, List.map_cons, List.sum_cons]
      simp only [hq, PoolAction.sends, List.length_append, List.length_singleton, List.nil_append,
        List.map_cons, List.map_nil, List.sum_cons, List.sum_nil, hacc.accepted]
      omega

theorem Underway.exists_step (h : p.Underway script requests sent)
    (hlast : ∀ (t : Nat) (r : Request ω ε), requests[t]? = some r → r.LastAttempt (script t) (k t))
    (hgone : p.gone = false) :
    ∃ a p', p.act a = some p' ∧ p'.Underway script requests (sent ++ a.sends) ∧
      p'.toil requests k (sent ++ a.sends) < p.toil requests k sent := by
  by_cases hsender : p.queue = [] ∧ p.closed = false
  · exact h.exists_sending hgone hsender.1 hsender.2
  · obtain ⟨rest, hrest, hclosed⟩ := h.unsent
    obtain ⟨a, p', hturn, hp⟩ := exists_turn script hgone fun _ hq =>
      Bool.of_not_eq_false fun hopen => hsender ⟨hq, hopen⟩
    obtain ⟨hfollows, heffort, hclosed', hcancelled'⟩ := hturn.step
      (k := fun job => k job.ticket) hp h.reached.follows
      fun _ i tally job attempt e delay hw => h.reached.attempt_lt (forall_sent hrest hlast) hw
    have hreached := reached_act h.reached hp hfollows
    refine ⟨a, p', hp, ⟨hreached, hcancelled'.trans h.not_cancelled, rest, ?_, ?_⟩, ?_⟩
    · rw [hturn.sends, List.append_nil]
      exact hrest
    · rw [hclosed']
      exact hclosed
    · rw [hturn.sends, List.append_nil]
      unfold toil
      rw [hclosed']
      omega

/-! ## The whole run -/

/-- Every run of a pool over the requests can be brought to its end, and when no worker is left,
each request has been given exactly its attempts up to the last one, by one worker, and the
report and the failures tell what these attempts came to.  Nobody may die on the way, and so no
panic escapes an attempt, and a duration holds each wait. -/
theorem computes_alone {parallelism capacity : Nat} {rest : List (Request ω ε)}
    {actions : List (PoolAction ω ε)}
    (hrun : (start parallelism capacity).run actions = some p)
    (hsent : actions.flatMap PoolAction.sends ++ rest = requests)
    (hclosed : p.closed = true → rest = [])
    (hcancelled : p.cancelled = false)
    (hfollows : p.Follows script)
    (hlast : ∀ (t : Nat) (r : Request ω ε), requests[t]? = some r → r.LastAttempt (script t) (k t))
    (hcontained : ∀ (t : Nat) (r : Request ω ε), requests[t]? = some r → r.Contained (script t))
    (hmeasured : ∀ (t : Nat) (r : Request ω ε), requests[t]? = some r → r.Measured (script t)) :
    (∃ more p', p.run more = some p' ∧ p'.gone = true ∧ p'.cancelled = false ∧
      p'.Follows script ∧ (actions ++ more).flatMap PoolAction.sends = requests) ∧
    (p.gone = true → rest = [] ∧
      (∀ t < requests.length, ∃ i, p.eventsOf t =
        attempts i t 1 ((List.range' 1 (k t)).map (script t))) ∧
      p.Tells ((numbered requests).map (.alone script k))) := by
  have hreached := reached_run (reached_start script parallelism capacity) hrun hfollows
  rw [List.nil_append] at hreached
  constructor
  · obtain ⟨more, p', hmore, hgone, hunderway⟩ := exists_end (m := fun p sent => p.toil requests k sent)
      (fun q sent hq hgone => hq.exists_step hlast hgone)
      (⟨hreached, hcancelled, rest, hsent, hclosed⟩ : p.Underway script requests _)
    obtain ⟨rest', hrest', hclosed'⟩ := hunderway.unsent
    have hdead := hunderway.reached.not_dead (forall_sent hrest' hcontained)
      (forall_sent hrest' hmeasured)
    have hnil := hclosed' (hunderway.reached.staffed.closed_of_gone hgone hunderway.not_cancelled
      hdead).1
    refine ⟨more, p', hmore, hgone, hunderway.not_cancelled, hunderway.reached.follows, ?_⟩
    rw [List.flatMap_append, ← hrest', hnil, List.append_nil]
  · intro hgone
    have hdead := hreached.not_dead (forall_sent hsent hcontained) (forall_sent hsent hmeasured)
    have hnil := hclosed (hreached.staffed.closed_of_gone hgone hcancelled hdead).1
    rw [hnil, List.append_nil] at hsent
    rw [hsent] at hreached
    refine ⟨hnil, fun t ht => hreached.eventsOf_eq hgone hcancelled hdead hlast ht, ?_⟩
    rw [← hreached.settlements_eq hgone hcancelled hdead hlast]
    exact hreached.tells hgone hdead

/-- Three requests, of which one is tried again, one is refused and one panics. -/
def threeRequests : List (Request Unit Nat) :=
  [⟨"again", (), ⟨some 3, .zero, .zero, 1⟩, alwaysRetry⟩,
    ⟨"refused", (), ⟨none, .zero, .zero, 1⟩, fun _ => some false⟩,
    ⟨"panicking", (), ⟨some 0, .zero, .zero, 1⟩, alwaysRetry⟩]

def threeScripts : Nat → Nat → Outcome Nat
  | 0, 1 => .failed 7
  | 1, _ => .failed 9
  | 2, _ => .panicked (.string "boom")
  | _, _ => .done

/-- Two workers and one place in the queue suffice for the three of them. -/
theorem computes_alone_three :
    ∃ (actions : List (PoolAction Unit Nat)) (p : Pool Unit Nat),
      (start 2 1).run actions = some p ∧ actions.flatMap PoolAction.sends = threeRequests ∧
      p.gone = true ∧ p.report.completed = 1 ∧
      p.report.failed.Perm ["refused", "panicking"] ∧
      p.failures.Perm [⟨"refused", 1, .failed 9⟩, ⟨"panicking", 1, .panicked "boom"⟩] ∧
      ∃ i, p.eventsOf 0 =
        [.began i 0 1, .ended i 0 1 (.failed 7), .began i 0 2, .ended i 0 2 .done] := by
  have hlast : ∀ (t : Nat) (r : Request Unit Nat), threeRequests[t]? = some r →
      r.LastAttempt (threeScripts t) (if t = 0 then 2 else 1) := by
    intro t r hr
    match t, hr with
    | 0, rfl =>
      refine ⟨by decide, trivial, fun n hpos hlt => ?_⟩
      obtain rfl : n = 1 := Nat.le_antisymm (Nat.le_of_lt_succ hlt) hpos
      rintro (hfalse | hfalse)
      · exact nomatch hfalse
      · exact nomatch hfalse
    | 1, rfl => exact ⟨by decide, .inl rfl, fun n hpos hlt => absurd hlt (Nat.not_lt.mpr hpos)⟩
    | 2, rfl => exact ⟨by decide, trivial, fun n hpos hlt => absurd hlt (Nat.not_lt.mpr hpos)⟩
  have hcontained : ∀ (t : Nat) (r : Request Unit Nat), threeRequests[t]? = some r →
      r.Contained (threeScripts t) := by
    intro t r hr
    have hran : ∀ n, threeScripts t n ≠ .crashed := by
      intro n
      unfold threeScripts
      split <;> exact nofun
    match t, hr with
    | 0, rfl => exact Request.contained_of_forall hran nofun
    | 1, rfl => exact Request.contained_of_forall hran nofun
    | 2, rfl => exact Request.contained_of_forall hran nofun
  have hmeasured : ∀ (t : Nat) (r : Request Unit Nat), threeRequests[t]? = some r →
      r.Measured (threeScripts t) := by
    intro t r hr
    match t, hr with
    | 0, rfl => exact Request.measured_of_waits (RetryPolicy.waits_of_maxDelay rfl)
    | 1, rfl => exact Request.measured_of_waits (RetryPolicy.waits_of_maxDelay rfl)
    | 2, rfl => exact Request.measured_of_waits (RetryPolicy.waits_of_maxDelay rfl)
  obtain ⟨⟨actions, p, hrun, hgone, hcancelled, hfollows, hsent⟩, -⟩ :=
    computes_alone (show (start 2 1 : Pool Unit Nat).run [] = some _ from rfl) (List.nil_append _)
      nofun rfl (fun _ _ _ _ => nofun) hlast hcontained hmeasured
  rw [List.nil_append] at hsent
  obtain ⟨-, hend⟩ := computes_alone hrun ((List.append_nil _).trans hsent)
    (fun _ => rfl) hcancelled hfollows hlast hcontained hmeasured
  obtain ⟨-, hevents, htells⟩ := hend hgone
  refine ⟨actions, p, hrun, hsent, hgone, htells.completed, ?_, htells.failures,
    hevents 0 (by decide)⟩
  exact htells.failed.trans (htells.failures.map _)

/-- A request that panics with something else than a string. -/
def oddRequest : Request Unit Nat :=
  ⟨"odd", (), ⟨some 5, .zero, .zero, 1⟩, alwaysRetry⟩

def oddOutcome : Outcome Nat :=
  .panicked (.other "boom")

/-- A request that would be done if only it were tried again, after the longest wait there is. -/
def sleepyRequest : Request Unit Nat :=
  ⟨"sleepy", (), ⟨some 2, .ofParts (2 ^ 64 - 1) 999999999, .ofParts (2 ^ 64 - 1) 999999999, 1⟩,
    alwaysRetry⟩

def sleepyScript : Nat → Outcome Nat
  | 1 => .failed 7
  | _ => .done

/-- A failure does not repeat what a panic carries unless that is a string.  Without a duration
for the wait a request does not get to its last attempt, though nothing panics in its work or in
the judgement of its errors, and neither the report nor the failures know of it. -/
theorem less_than_alone :
    (∃ p : Pool Unit Nat,
      (start 1 1).run [.send oddRequest, .close, .take 0, .finish 0 oddOutcome 1, .leave 0] =
        some p ∧
      p.gone = true ∧ p.cancelled = false ∧
      oddRequest.LastAttempt (fun _ => oddOutcome) 1 ∧ oddRequest.Contained (fun _ => oddOutcome) ∧
      p.failures.map (Failure.message toString) =
        ["request odd failed after 1 attempt(s): attempt panicked: non-string panic payload"]) ∧
    ∃ p : Pool Unit Nat,
      (start 1 1).run [.send sleepyRequest, .close, .take 0, .finish 0 (sleepyScript 1) 1] =
        some p ∧
      p.gone = true ∧ p.cancelled = false ∧
      sleepyRequest.LastAttempt sleepyScript 2 ∧ sleepyRequest.Contained sleepyScript ∧
      sleepyScript 2 = .done ∧ p.report.completed = 0 ∧ p.report.failed = [] ∧ p.failures = [] := by
  constructor
  · have hends : ((start 1 1).run [.send oddRequest, .close, .take 0, .finish 0 oddOutcome 1,
        .leave 0]).map (fun p => (p.gone, p.cancelled,
          p.failures.map (Failure.message toString))) =
        some (true, false,
          ["request odd failed after 1 attempt(s): attempt panicked: non-string panic payload"]) := by
      decide +kernel
    obtain ⟨p, hrun, hp⟩ := Option.map_eq_some_iff.mp hends
    simp only [Prod.mk.injEq] at hp
    obtain ⟨hgone, hcancelled, hfailures⟩ := hp
    have hlast : oddRequest.LastAttempt (fun _ => oddOutcome) 1 :=
      ⟨by decide, trivial, fun n hpos hlt => absurd hlt (Nat.not_lt.mpr hpos)⟩
    exact ⟨p, hrun, hgone, hcancelled, hlast,
      Request.contained_of_forall (fun _ => nofun) nofun, hfailures⟩
  · have hends : ((start 1 1).run [.send sleepyRequest, .close, .take 0,
        .finish 0 (sleepyScript 1) 1]).map (fun p => (p.gone, p.cancelled, p.report.completed,
          p.report.failed, p.failures.isEmpty)) = some (true, false, 0, [], true) := by
      decide +kernel
    obtain ⟨p, hrun, hp⟩ := Option.map_eq_some_iff.mp hends
    simp only [Prod.mk.injEq] at hp
    obtain ⟨hgone, hcancelled, hcompleted, hfailed, hfailures⟩ := hp
    have hlast : sleepyRequest.LastAttempt sleepyScript 2 := by
      refine ⟨by decide, trivial, fun n hpos hlt => ?_⟩
      obtain rfl : n = 1 := Nat.le_antisymm (Nat.le_of_lt_succ hlt) hpos
      rintro (hfalse | hfalse)
      · exact nomatch hfalse
      · exact nomatch hfalse
    have hran : ∀ n, sleepyScript n ≠ .crashed := by
      intro n
      unfold sleepyScript
      split <;> exact nofun
    exact ⟨p, hrun, hgone, hcancelled, hlast, Request.contained_of_forall hran nofun, rfl,
      hcompleted, hfailed, List.isEmpty_iff.mp hfailures⟩

end Pool
end ImageUpload
