import ImageUpload.Proofs.Retry
import ImageUpload.Proofs.Session.Success

/-
Writes by a script.

A script says what each attempt at writing a range comes to.  It fixes after which attempt
a range is settled and how, `RetryPolicy.Settles`, and the fate of a request that is
settled is the one its script tells, `Invariant.settled_exact`, in whatever order things
happen.
-/

namespace ImageUpload

/-! ## Scripts -/

/-- What the attempts at writing each range come to.  They are counted from one. -/
abbrev WriteScript :=
  ByteRange → (attempt : Nat) → Except WriteFault Unit

/-- How a request fails whose last write ended like this. -/
def WriteFault.toAttempt : WriteFault → AttemptError StorageError
  | failed e => .failed e
  | panicked text => .panicked text

/-- What becomes of a request whose last write came to this. -/
def Fate.of : Except WriteFault Unit → Fate StorageError
  | .ok _ => .completed
  | .error f => .failed f.toAttempt

namespace Session

section

variable {J : Float → Prop} {retry : RetryPolicy} {c : Chunk} {attempt : Nat}
  {result : Except WriteFault Unit}

theorem isFinal_of_repeats (h : (requestOf retry c).Repeats attempt (outcomeOf result)) :
    retry.isFinal attempt result = false := by
  obtain ⟨e, he, hretries, hallows⟩ := h
  cases result with
  | ok _ => exact nomatch he
  | error f =>
    cases f with
    | panicked text => exact nomatch he
    | failed e' =>
      injection he with he
      subst he
      injection hretries with hretryable
      change retry.allowsRetry attempt = true at hallows
      show (!e'.isRetryable || !retry.allowsRetry attempt) = false
      rw [hretryable, hallows]
      rfl

/-- A request that is neither lost nor abandoned ends with a final attempt. -/
theorem isFinal_of_ends {fate : Fate StorageError}
    (h : (requestOf retry c).Ends J false attempt (outcomeOf result) fate) (hlost : fate ≠ .lost) :
    retry.isFinal attempt result = true ∧ fate = .of result := by
  cases result with
  | ok _ =>
    cases h with
    | done => exact ⟨rfl, rfl⟩
  | error f =>
    cases f with
    | panicked text =>
      cases h with
      | panicked text => exact ⟨rfl, rfl⟩
    | failed e =>
      cases h with
      | unjudged e hretries => exact absurd rfl hlost
      | final e hretries =>
        injection hretries with hretryable
        refine ⟨?_, rfl⟩
        show (!e.isRetryable || !retry.allowsRetry attempt) = true
        rw [hretryable]
        rfl
      | exhausted e hretries hallows =>
        change retry.allowsRetry attempt = false at hallows
        refine ⟨?_, rfl⟩
        show (!e.isRetryable || !retry.allowsRetry attempt) = true
        rw [hallows, Bool.not_false, Bool.or_true]
      | abandoned e hrepeats hcancelled => exact nomatch hcancelled
      | overslept e jitter hrepeats hjitter hdelay => exact absurd rfl hlost

end

/-! ## Sessions by a script -/

variable {σ : Type} {s : Session σ} {r : Reader} {J : Float → Prop}

theorem range_of_requests {ticket : Nat} {request : Request Chunk StorageError}
    (h : (s.requests r)[ticket]? = some request) :
    ∃ range, s.plan.ranges[ticket]? = some range ∧ ticket < s.dispatched ∧
      request = requestOf s.retry (.of r.source range) := by
  obtain ⟨c, hc, rfl⟩ := getElem?_requests h
  obtain ⟨range, hrange, hlt, rfl⟩ := getElem?_sent hc
  exact ⟨range, hrange, hlt, rfl⟩

theorem range_of_jobs {desks : List (Desk Chunk StorageError)}
    (haccounts : s.pool.Accounts J (s.requests r) desks) {d : Desk Chunk StorageError}
    (hd : d ∈ desks) {job : Job Chunk StorageError} (hjob : job ∈ d.jobs) :
    ∃ range, s.plan.ranges[job.ticket]? = some range ∧ job.ticket < s.dispatched ∧
      job.request = requestOf s.retry (.of r.source range) := by
  refine range_of_requests (mem_numbered.mp (haccounts.jobs.mem_iff.mp ?_))
  exact List.mem_append_right _ (List.mem_flatMap.mpr ⟨d, hd, hjob⟩)

variable [PageStore σ]

theorem jittered_of_act {s s' : Session σ} {a : SessionAction} (h : s.act a = some s') :
    Draws Jittered a := by
  cases a with
  | write i jitter =>
    change s.write i jitter = some s' at h
    unfold write at h
    split at h
    next tally job attempt hworker =>
      obtain ⟨pool, hpool, -⟩ := Option.map_eq_some_iff.mp h
      unfold Pool.finish at hpool
      rw [hworker] at hpool
      simp only at hpool
      split at hpool
      next hjitter => exact hjitter
      next _ => exact nomatch hpool
    next _ => exact nomatch h
  | read | offer | close | receive | send | refuse | shut | take | wake | abandon | leave | hear
  | tick | forward | consume | stop | conclude => trivial

theorem jittered_of_run {s s' : Session σ} {actions : List SessionAction}
    (h : s.run actions = some s') : ∀ a ∈ actions, Draws Jittered a := by
  induction actions generalizing s with
  | nil => exact nofun
  | cons a rest ih =>
    obtain ⟨s₁, h₁, hrest⟩ := Option.bind_eq_some_iff.mp h
    intro b hb
    rcases List.mem_cons.mp hb with rfl | hb
    · exact jittered_of_act h₁
    · exact ih hrest b hb

/-- The writes of exactly this range, the first one first. -/
def writesOf (s : Session σ) (range : ByteRange) : List WriteRecord :=
  s.writes.filter fun w => decide (w.chunk.range = range)

/-- Every write so far came to what the script says. -/
def Follows (script : WriteScript) (s : Session σ) : Prop :=
  ∀ range i w, (s.writesOf range)[i]? = some w → w.result = script range (i + 1)

variable {store₀ : σ} {script : WriteScript}

theorem map_filter_related {α β γ : Type} {R : α → β → Prop} {p : α → Bool} {q : β → Bool}
    {f : α → γ} {g : β → γ} {l : List α} {m : List β} (h : List.Forall₂ R l m)
    (hpq : ∀ a b, R a b → p a = q b) (hfg : ∀ a b, R a b → f a = g b) :
    (l.filter p).map f = (m.filter q).map g := by
  induction h with
  | nil => rfl
  | @cons a b l m hab hrest ih =>
    rw [List.filter_cons, List.filter_cons, hpq a b hab]
    split
    next _ => rw [List.map_cons, List.map_cons, ih, hfg a b hab]
    next _ => exact ih

/-- What the attempts at a ticket came to is what the writes of its range came to. -/
theorem Invariant.outcomes_eq (h : s.Invariant J r store₀) (hnodup : s.plan.ranges.Nodup)
    {ticket : Nat} {range : ByteRange} (hrange : s.plan.ranges[ticket]? = some range) :
    s.pool.outcomes ticket = (s.writesOf range).map fun w => outcomeOf w.result := by
  refine map_filter_related h.written (fun e w hew => ?_) (fun e w hew => hew.2)
  have hrequest : (s.requests r)[e.1]? = some (requestOf s.retry w.chunk) := by
    unfold requests
    rw [List.getElem?_map, hew.1]
    rfl
  obtain ⟨range', hrange', -, heq⟩ := range_of_requests hrequest
  injection heq with _ hchunk _ _
  rw [hchunk]
  show decide (e.1 = ticket) = decide (range' = range)
  refine decide_eq_decide.mpr ⟨fun hticket => ?_, fun hsame => ?_⟩
  · rw [hticket, hrange] at hrange'
    injection hrange' with hrange'
    exact hrange'.symm
  · have hlt := (List.getElem?_eq_some_iff.mp hrange').1
    refine (List.getElem?_inj hlt hnodup).mp ?_
    rw [hrange', hrange, hsame]

theorem Invariant.outcome_of_follows (h : s.Invariant J r store₀) (hnodup : s.plan.ranges.Nodup)
    (hfollows : s.Follows script) {ticket i : Nat} {range : ByteRange} {o : Outcome StorageError}
    (hrange : s.plan.ranges[ticket]? = some range) (ho : (s.pool.outcomes ticket)[i]? = some o) :
    o = outcomeOf (script range (i + 1)) := by
  rw [h.outcomes_eq hnodup hrange, List.getElem?_map] at ho
  obtain ⟨w, hw, rfl⟩ := Option.map_eq_some_iff.mp ho
  rw [hfollows range i w hw]

/-- If every attempt so far calls for another one, none of them is final. -/
theorem Invariant.first_of_tried (h : s.Invariant J r store₀) (hnodup : s.plan.ranges.Nodup)
    (hfollows : s.Follows script) {ticket : Nat} {range : ByteRange}
    (hrange : s.plan.ranges[ticket]? = some range) {before rest : List (Outcome StorageError)}
    (houtcomes : s.pool.outcomes ticket = before ++ rest)
    (htried : (requestOf s.retry (.of r.source range)).Tried before) {j : Nat} (hpos : 0 < j)
    (hj : j ≤ before.length) : s.retry.isFinal j (script range j) = false := by
  have hlt : j - 1 < before.length := by omega
  have hget : (s.pool.outcomes ticket)[j - 1]? = some before[j - 1] := by
    rw [houtcomes, List.getElem?_append_left hlt]
    exact List.getElem?_eq_getElem hlt
  have hrepeats := htried (j - 1) before[j - 1] (List.getElem?_eq_getElem hlt)
  rw [h.outcome_of_follows hnodup hfollows hrange hget, Nat.sub_add_cancel hpos] at hrepeats
  exact isFinal_of_repeats hrepeats

/-- A request is not lost, if every wait can be held. -/
theorem Invariant.kept (h : s.Invariant Jittered r store₀) (hwaits : s.retry.Waits)
    {desks : List (Desk Chunk StorageError)}
    (haccounts : s.pool.Accounts Jittered (s.requests r) desks) :
    ∀ d ∈ desks, ∀ x ∈ d.settled, x.fate ≠ .lost := by
  intro d hd x hx hlost
  obtain ⟨range, -, -, hrequest⟩ :=
    range_of_jobs haccounts hd (List.mem_append_right _ (List.mem_map_of_mem hx))
  obtain ⟨before, o, houtcomes, hattempts, -, hends⟩ := haccounts.settled d hd x hx
  rw [hlost, hrequest] at hends
  cases hends with
  | crashed =>
    -- a write fails or panics, and neither is a crash
    have hmem : Outcome.crashed ∈ s.pool.outcomes x.job.ticket := by
      rw [houtcomes]
      exact List.mem_append_right _ List.mem_cons_self
    obtain ⟨e, he, hcrashed⟩ := List.mem_map.mp hmem
    obtain ⟨w, -, -, hw⟩ := exists_related h.written (List.mem_of_mem_filter he)
    rw [hcrashed] at hw
    cases hresult : w.result with
    | ok _ =>
      rw [hresult] at hw
      exact nomatch hw
    | error f =>
      rw [hresult] at hw
      cases f with
      | failed e => exact nomatch hw
      | panicked text => exact nomatch hw
  | unjudged e hretries => exact nomatch hretries
  | overslept e jitter hrepeats hjitter hdelay =>
    obtain ⟨e', -, -, hallows⟩ := hrepeats
    exact hwaits x.attempts jitter (by omega) hallows hjitter hdelay

/-- A request is settled as the script of its range tells. -/
theorem Invariant.settled_exact (h : s.Invariant Jittered r store₀) (hwaits : s.retry.Waits)
    (hnodup : s.plan.ranges.Nodup) (hfollows : s.Follows script)
    (hcancelled : s.pool.cancelled = false) {desks : List (Desk Chunk StorageError)}
    (haccounts : s.pool.Accounts Jittered (s.requests r) desks) {d : Desk Chunk StorageError}
    (hd : d ∈ desks) {x : Settlement Chunk StorageError} (hx : x ∈ d.settled) :
    ∃ range, s.plan.ranges[x.job.ticket]? = some range ∧
      x.job.request = requestOf s.retry (.of r.source range) ∧
      s.retry.Settles (script range) x.attempts ∧ x.fate = .of (script range x.attempts) ∧
      (s.pool.outcomes x.job.ticket).length = x.attempts := by
  obtain ⟨range, hrange, -, hrequest⟩ :=
    range_of_jobs haccounts hd (List.mem_append_right _ (List.mem_map_of_mem hx))
  obtain ⟨before, o, houtcomes, hattempts, htried, hends⟩ := haccounts.settled d hd x hx
  have ho : o = outcomeOf (script range x.attempts) := by
    rw [← hattempts]
    refine h.outcome_of_follows hnodup hfollows hrange ?_
    rw [houtcomes]
    exact List.getElem?_concat_length
  rw [hrequest] at htried hends
  rw [hcancelled, ho] at hends
  obtain ⟨hfinal, hfate⟩ := isFinal_of_ends hends (h.kept hwaits haccounts d hd x hx)
  refine ⟨range, hrange, hrequest, ⟨by omega, hfinal, fun j hpos hj => ?_⟩, hfate, ?_⟩
  · exact h.first_of_tried hnodup hfollows hrange houtcomes htried hpos (by omega)
  · rw [houtcomes, List.length_append]
    exact hattempts

end Session
end ImageUpload
