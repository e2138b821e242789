import ImageUpload.Proofs.Session.Exact

/-
How the events of a session end.

An event that finds the queue full is dropped, and the last one is no exception: it comes
after all others and tells what the result tells, and it is there if there was room for it
when the verdict was drawn, `closed_by_finished`.  A consumer that has taken nothing finds
the queue full after enough failures, and is never told of the end, `finished_dropped`.
-/

namespace ImageUpload

/-- The event tells of the work while it goes on. -/
def UploadEvent.isNote : UploadEvent → Bool
  | progress _ => true
  | rangeFailed _ => true
  | _ => false

/-- The outcome says of a session what its result says. -/
structure SessionOutcome.Tells (outcome : SessionOutcome)
    (result : Except UploadError SessionResult) : Prop where
  completed : outcome = .completed ↔ ∃ r, result = .ok r ∧ r.success = true
  incomplete : (∃ n, outcome = .incomplete n) ↔ ∃ r, result = .ok r ∧ r.success = false
  sourceFailed : outcome = .sourceFailed ↔ ∃ e, result = .error (.sourceRead e)

namespace Session

/-! ## The queue of events -/

/-- What becomes of an event behind those that wait. -/
def kept (waiting : List UploadEvent) (e : UploadEvent) : List UploadEvent :=
  if waiting.length < eventDepth then [e] else []

theorem enqueue_eq (waiting : List UploadEvent) (e : UploadEvent) :
    enqueue waiting e = waiting ++ kept waiting e := by
  unfold enqueue kept
  split
  next _ => rfl
  next _ => exact (List.append_nil _).symm

theorem mem_kept {waiting : List UploadEvent} {e x : UploadEvent} (h : x ∈ kept waiting e) :
    x = e := by
  unfold kept at h
  split at h
  next _ => exact List.mem_singleton.mp h
  next _ => exact nomatch h

theorem le_length_enqueue (waiting : List UploadEvent) (e : UploadEvent) :
    waiting.length ≤ (enqueue waiting e).length ∧
      min eventDepth (waiting.length + 1) ≤ (enqueue waiting e).length := by
  unfold enqueue
  split
  next _ =>
    rw [List.length_append, List.length_singleton]
    omega
  next _ => omega

variable {σ : Type} {s s' : Session σ} {a : SessionAction} {J : Float → Prop}

/-- A session whose events come behind those of earlier sessions that nobody has taken. -/
def startBehind (earlier : List UploadEvent) (options : UploadOptions) (parallelism : Nat)
    (plan : Plan) (reader : Reader) (store : σ) : Session σ :=
  { start options parallelism plan reader store with
    waiting := enqueue earlier (.planned plan.size plan.effective plan.ranges.length) }

theorem startBehind_nil (options : UploadOptions) (parallelism : Nat) (plan : Plan)
    (reader : Reader) (store : σ) :
    startBehind [] options parallelism plan reader store =
      start options parallelism plan reader store :=
  rfl

theorem phased_startBehind (earlier : List UploadEvent) (options : UploadOptions)
    (parallelism : Nat) (plan : Plan) (reader : Reader) (store : σ) :
    (startBehind earlier options parallelism plan reader store).Phased :=
  ⟨rfl, rfl, rfl⟩

/-! ## A queue that nobody reads -/

/-- As long as nothing has been taken, the queue is full or every failure waits in it. -/
def Crowded (s : Session σ) : Prop :=
  s.taken = [] → min eventDepth (s.failed.length + 1) ≤ s.waiting.length

theorem crowded_start (options : UploadOptions) (parallelism : Nat) (plan : Plan) (r : Reader)
    (store : σ) : (start options parallelism plan r store).Crowded :=
  fun _ => Nat.min_le_right _ _

/-- Without a consumer the schedule has nothing taken. -/
theorem ne_consume_of_nextAction? (h : s.nextAction? false = some a) : a ≠ .consume := by
  rintro rfl
  unfold nextAction? at h
  rcases Option.or_eq_some_iff.mp h with h | ⟨-, h⟩
  · obtain ⟨i, -, h⟩ := List.exists_of_findSome?_eq_some h
    unfold workerAction? at h
    repeat' split at h
    all_goals exact nomatch h
  · rcases Option.or_eq_some_iff.mp h with h | ⟨-, h⟩
    · unfold listenerAction? at h
      rw [Bool.false_and, if_neg Bool.false_ne_true] at h
      repeat' split at h
      all_goals exact nomatch h
    · unfold dispatcherAction? producerAction at h
      repeat' split at h
      all_goals exact nomatch h

/-! ## The verdict -/

theorem lastOutcome_tells (s : Session σ) (e : Option TransferError) (last : ProgressRecord) :
    (s.lastOutcome e).Tells (s.verdict e last) := by
  cases e with
  | some e =>
    exact ⟨⟨nofun, nofun⟩, ⟨nofun, nofun⟩, ⟨fun _ => ⟨e, rfl⟩, fun _ => rfl⟩⟩
  | none =>
    show s.outcome.Tells (.ok ⟨s.succeeded, s.failed, s.bytesSent last, last⟩)
    unfold outcome
    cases s.succeeded with
    | true =>
      refine ⟨⟨fun _ => ⟨_, rfl, rfl⟩, fun _ => rfl⟩, ⟨nofun, ?_⟩, ⟨nofun, nofun⟩⟩
      rintro ⟨r, hr, hfalse⟩
      injection hr with hr
      rw [← hr] at hfalse
      exact nomatch hfalse
    | false =>
      refine ⟨⟨nofun, ?_⟩, ⟨fun _ => ⟨_, rfl, rfl⟩, fun _ => ⟨_, rfl⟩⟩, ⟨nofun, nofun⟩⟩
      rintro ⟨r, hr, htrue⟩
      injection hr with hr
      rw [← hr] at htrue
      exact nomatch htrue

/-- What the result says of the failures is what the session has heard of them. -/
theorem failed_of_result? (h : s.Phased) {r : SessionResult} (hresult : s.result? = some (.ok r)) :
    r.failed = s.failed := by
  obtain ⟨e, last, -, -, hverdict⟩ := h.of_phase (phase_of_result? hresult)
  cases e with
  | some e => exact nomatch hverdict
  | none =>
    injection hverdict with hverdict
    rw [hverdict]

/-! ## One action -/

/-- Before its end a session has told of its plan, and then of nothing but its work. -/
def Opens (head : List UploadEvent) (s : Session σ) : Prop :=
  ∃ middle, s.taken ++ s.waiting = head ++ middle ∧ ∀ e ∈ middle, e.isNote = true

theorem Opens.enqueue {head : List UploadEvent} (h : s.Opens head) {e : UploadEvent}
    (he : e.isNote = true) (htaken : s'.taken = s.taken)
    (hwaiting : s'.waiting = enqueue s.waiting e) : s'.Opens head := by
  obtain ⟨middle, hevents, hnotes⟩ := h
  refine ⟨middle ++ kept s.waiting e, ?_, List.forall_mem_append.mpr ⟨hnotes, ?_⟩⟩
  · rw [htaken, hwaiting, enqueue_eq, ← List.append_assoc, hevents, List.append_assoc]
  · intro x hx
    rw [mem_kept hx]
    exact he

variable [PageStore σ]

/-- The consumer gives nothing back. -/
theorem taken_step (hstep : Step J s a s') : s.taken <+: s'.taken := by
  cases hstep with
  | consume e rest hwaiting => exact ⟨[e], rfl⟩
  | _ => exact List.prefix_refl _

theorem taken_eq_of_step (hstep : Step J s a s') (ha : a ≠ .consume) : s'.taken = s.taken := by
  cases hstep with
  | consume e rest hwaiting => exact absurd rfl ha
  | _ => rfl

theorem taken_run {actions : List SessionAction} (hrun : s.run actions = some s') :
    s.taken <+: s'.taken :=
  run_induction (J := fun _ => True) (P := fun s' => s.taken <+: s'.taken)
    (fun _ _ _ hstep hs => hs.trans (taken_step hstep)) (fun a _ => draws_true a) hrun
    (List.prefix_refl _)

/-- Only the verdict ends a session. -/
theorem conclude_of_ended (hstep : Step J s a s') (hphase : ∀ result, s.phase ≠ .ended result)
    {result : Except UploadError SessionResult} (hended : s'.phase = .ended result) :
    a = .conclude := by
  cases hstep with
  | conclude e last hstopping hrecords => rfl
  | receive | send | refuse | shut | stop => exact nomatch hended
  | _ => exact absurd hended (hphase result)

theorem opens_step {head : List UploadEvent} (h : s.Opens head) (hstep : Step J s a s')
    (ha : a ≠ .conclude) : s'.Opens head := by
  cases hstep with
  | tell f x hf hrange => exact h.enqueue (e := .rangeFailed x) rfl rfl rfl
  | forward r rest hrecords => exact h.enqueue (e := .progress r) rfl rfl rfl
  | consume e rest hwaiting =>
    obtain ⟨middle, hevents, hnotes⟩ := h
    refine ⟨middle, ?_, hnotes⟩
    show s.taken ++ [e] ++ rest = head ++ middle
    rw [← hevents, hwaiting, List.append_assoc]
    rfl
  | conclude e last hphase hrecords => exact absurd rfl ha
  | _ => exact h

/-! ## The whole session -/

/-- A session that has come to its end drew its verdict once, and before it the work went on. -/
theorem exists_conclude {head : List UploadEvent} {actions : List SessionAction}
    {result : Except UploadError SessionResult} (hphased : s.Phased) (hopens : s.Opens head)
    (hphase : ∀ result, s.phase ≠ .ended result) (hrun : s.run actions = some s')
    (hended : s'.phase = .ended result) :
    ∃ before after s₀ s₁, actions = before ++ .conclude :: after ∧ s.run before = some s₀ ∧
      s₀.act .conclude = some s₁ ∧ s₁.run after = some s' ∧ s₁.Phased ∧ s₀.Opens head := by
  induction actions generalizing s with
  | nil =>
    injection hrun with hrun
    subst hrun
    exact absurd hended (hphase result)
  | cons a actions ih =>
    obtain ⟨s₁, hact, hafter⟩ := Option.bind_eq_some_iff.mp hrun
    have hstep : Step (fun _ => True) s a s₁ := step_of_act (draws_true a) hact
    by_cases hend : ∃ result, s₁.phase = .ended result
    · obtain ⟨result₁, hend⟩ := hend
      obtain rfl := conclude_of_ended hstep hphase hend
      exact ⟨[], actions, s, s₁, rfl, rfl, hact, hafter, phased_step hphased hstep, hopens⟩
    · have hphase₁ : ∀ result, s₁.phase ≠ .ended result := fun result hend' => hend ⟨result, hend'⟩
      have ha : a ≠ .conclude := by
        rintro rfl
        cases hstep with
        | move a pool ha hpool => exact nomatch ha
        | conclude e last _ _ => exact hphase₁ _ rfl
      obtain ⟨before, after, s₀, s₂, rfl, hbefore, hrest⟩ :=
        ih (phased_step hphased hstep) (opens_step hopens hstep ha) hphase₁ hafter
      exact ⟨a :: before, after, s₀, s₂, rfl, (run_cons_of_act hact before).trans hbefore, hrest⟩

variable {earlier : List UploadEvent} {options : UploadOptions} {parallelism : Nat} {plan : Plan}
  {r : Reader} {store : σ} {actions : List SessionAction}
  {result : Except UploadError SessionResult}

/-- How a session comes to its end, and what is there of its events. -/
theorem exists_closing
    (hrun : (startBehind earlier options parallelism plan r store).run actions = some s)
    (hresult : s.result? = some result) :
    ∃ before after s₀ e last, actions = before ++ .conclude :: after ∧
      (∀ a ∈ after, a = .consume) ∧
      (startBehind earlier options parallelism plan r store).run before = some s₀ ∧
      s₀.Opens (earlier ++
        kept earlier (.planned plan.size plan.effective plan.ranges.length)) ∧
      s₀.taken <+: s.taken ∧ s.failed = s₀.failed ∧ result = s₀.verdict e last ∧
      s.taken ++ s.waiting = s₀.taken ++
        enqueue s₀.waiting (.finished (s₀.lastOutcome e) (s₀.bytesSent last) last.percent) := by
  have hopens : (startBehind earlier options parallelism plan r store).Opens (earlier ++
      kept earlier (.planned plan.size plan.effective plan.ranges.length)) :=
    ⟨[], (enqueue_eq _ _).trans (List.append_nil _).symm, nofun⟩
  have hended := phase_of_result? hresult
  obtain ⟨before, after, s₀, s₁, hactions, hbefore, hconclude, hafter, hphased, hopens₀⟩ :=
    exists_conclude (phased_startBehind earlier options parallelism plan r store) hopens nofun hrun
      hended
  have hstep : Step (fun _ => True) s₀ .conclude s₁ := step_of_act trivial hconclude
  have htaken := (taken_step hstep).trans (taken_run hafter)
  cases hstep with
  | move a pool ha hpool => exact nomatch ha
  | conclude e last hphase hrecords =>
    obtain ⟨hconsume, hend, hfailed, hevents⟩ := ended_run hphased rfl hafter
    injection hended.symm.trans hend with hverdict
    exact ⟨before, after, s₀, e, last, hactions, hconsume, hbefore, hopens₀, htaken, hfailed,
      hverdict, hevents⟩

/-- Whatever becomes of the writes and however the consumer takes the events, the last thing
that happens in a session is its verdict.  What there is of its events begins with the plan and
ends with what the verdict tells, each of them if fewer events waited than there is room for,
and between them are only the failures and the progress. -/
theorem closed_by_finished
    (hrun : (startBehind earlier options parallelism plan r store).run actions = some s)
    (hresult : s.result? = some result) :
    ∃ before after s₀ middle outcome bytes percent,
      actions = before ++ .conclude :: after ∧ (∀ a ∈ after, a = .consume) ∧
      (startBehind earlier options parallelism plan r store).run before = some s₀ ∧
      s.taken ++ s.waiting =
        earlier ++ kept earlier (.planned plan.size plan.effective plan.ranges.length) ++ middle ++
          kept s₀.waiting (.finished outcome bytes percent) ∧
      (∀ e ∈ middle, e.isNote = true) ∧ outcome.Tells result := by
  obtain ⟨before, after, s₀, e, last, hactions, hafter, hbefore, ⟨middle, hmiddle, hnotes⟩, -, -,
    hverdict, hevents⟩ := exists_closing hrun hresult
  refine ⟨before, after, s₀, middle, s₀.lastOutcome e, s₀.bytesSent last, last.percent, hactions,
    hafter, hbefore, ?_, hnotes, ?_⟩
  · rw [hevents, enqueue_eq, ← List.append_assoc, hmiddle]
  · rw [hverdict]
    exact s₀.lastOutcome_tells e last

/-- Two bytes, of which one is written and one is not, behind an event that was never taken. -/
theorem closed_by_finished_behind :
    let first : ByteRange := ⟨0, 0, by decide, by decide⟩
    let second : ByteRange := ⟨1, 1, by decide, by decide⟩
    let began := startBehind [.finished .completed 0 100] Upload.twiceOptions 1 ⟨2, [first, second]⟩
      ⟨.ofBytes ⟨#[1, 2]⟩, 1, 1, 1⟩ Upload.fadingStore
    ∃ actions s result, began.run actions = some s ∧ s.result? = some (.ok result) ∧
      result.success = false ∧
      ∃ before after s₀ middle n bytes percent, actions = before ++ .conclude :: after ∧
        (∀ a ∈ after, a = .consume) ∧ began.run before = some s₀ ∧
        s.taken ++ s.waiting = [.finished .completed 0 100, .planned 2 2 2] ++ middle ++
          kept s₀.waiting (.finished (.incomplete n) bytes percent) ∧
        ∀ e ∈ middle, e.isNote = true := by
  intro first second began
  have hended : (began.complete true).result?.bind
      (fun result => result.toOption.map SessionResult.success) = some false := by decide +kernel
  obtain ⟨actions, hrun⟩ := drives_complete true began
  obtain ⟨result, hresult, hsuccess⟩ := Option.bind_eq_some_iff.mp hended
  obtain ⟨result, hok, hfalse⟩ := Option.map_eq_some_iff.mp hsuccess
  obtain rfl := Upload.eq_ok_of_toOption hok
  obtain ⟨before, after, s₀, middle, outcome, bytes, percent, hactions, hafter, hbefore, hevents,
    hnotes, htells⟩ := closed_by_finished hrun hresult
  obtain ⟨n, rfl⟩ := htells.incomplete.mpr ⟨result, rfl, hfalse⟩
  exact ⟨actions, _, result, hrun, hresult, hfalse, before, after, s₀, middle, n, bytes, percent,
    hactions, hafter, hbefore, hevents, hnotes⟩

/-! ## Without a consumer -/

theorem crowded_step (h : s.Crowded) (hstep : Step J s a s') : s'.Crowded := by
  cases hstep with
  | tell f x hf hrange =>
    intro htaken
    have hcrowded := h htaken
    obtain ⟨hkeep, hroom⟩ := le_length_enqueue s.waiting (.rangeFailed x)
    show min eventDepth ((s.failed ++ [x]).length + 1) ≤
      (enqueue s.waiting (.rangeFailed x)).length
    rw [List.length_append, List.length_singleton]
    omega
  | forward record rest hrecords =>
    exact fun htaken => (h htaken).trans (le_length_enqueue s.waiting (.progress record)).1
  | conclude e last hphase hrecords =>
    exact fun htaken => (h htaken).trans (le_length_enqueue s.waiting _).1
  | consume e rest hwaiting =>
    exact fun htaken => absurd htaken (List.append_ne_nil_of_right_ne_nil _ nofun)
  | _ => exact h

/-- If the consumer has taken nothing and enough ranges have failed, it is not told of the end. -/
theorem finished_dropped
    (hrun : (start options parallelism plan r store).run actions = some s)
    (hresult : s.result? = some result) (htaken : s.taken = [])
    (hfailed : eventDepth ≤ s.failed.length + 1) (outcome : SessionOutcome) (bytes : Nat)
    (percent : Float) : .finished outcome bytes percent ∉ s.taken ++ s.waiting := by
  rw [← startBehind_nil] at hrun
  obtain ⟨before, after, s₀, e, last, -, -, hbefore, ⟨middle, hmiddle, hnotes⟩, htaken₀, hfailed₀,
    -, hevents⟩ := exists_closing hrun hresult
  have hcrowded : s₀.Crowded := run_induction (J := fun _ => True)
    (fun _ _ _ hstep hs => crowded_step hs hstep) (fun a _ => draws_true a) hbefore
    (crowded_start options parallelism plan r store)
  rw [htaken, List.prefix_nil] at htaken₀
  have hwaits := hcrowded htaken₀
  rw [← hfailed₀] at hwaits
  have hfull : ¬s₀.waiting.length < eventDepth := by omega
  rw [hevents, enqueue, if_neg hfull, hmiddle]
  intro hmem
  rcases List.mem_append.mp hmem with hmem | hmem
  · rw [List.nil_append] at hmem
    exact UploadEvent.noConfusion (mem_kept hmem)
  · exact Bool.noConfusion (hnotes _ hmem)

/-- On the schedule without a consumer nothing is taken. -/
theorem taken_follow (n : Nat) (s : Session σ) : (follow false n s).taken = s.taken := by
  induction n generalizing s with
  | zero => rfl
  | succ n ih =>
    rw [follow]
    split
    next _ => rfl
    next s' h =>
      obtain ⟨a, ha, hact⟩ := Option.bind_eq_some_iff.mp h
      have hstep : Step (fun _ => True) s a s' := step_of_act (draws_true a) hact
      exact (ih s').trans (taken_eq_of_step hstep (ne_consume_of_nextAction? ha))

theorem taken_complete (s : Session σ) : (complete false s).taken = s.taken := by
  refine (taken_follow _ _).trans ?_
  cases htick : s.tick 0 with
  | none => rfl
  | some s' =>
    have hstep : Step (fun _ => True) s (.tick 0) s' := step_of_tick htick
    exact taken_eq_of_step hstep nofun

end Session

namespace Upload

/-- Room for 255 bytes, none of which can be written. -/
def sealedStore : DisturbedStore MemoryStore :=
  .around ((MemoryStore.empty 1 1).create 255 .empty).2
    { write := fun _ _ => .fails false .notFound }

def denseImage : ByteArray :=
  ⟨Array.replicate 255 1⟩

theorem size_denseImage : denseImage.size = 255 :=
  Array.size_replicate

theorem byteOf_denseImage {i : Nat} (hi : i < 255) : byteOf denseImage i = 1 := by
  rw [byteOf_of_lt (size_denseImage ▸ hi)]
  exact Array.getElem_replicate _

theorem denseImage_delivers : (Source.ofBytes denseImage).Delivers denseImage :=
  Source.ofBytes_delivers denseImage (by rw [size_denseImage]; decide)

/-- Each byte of the image is a range of its own, and none of them is left out. -/
theorem plan_denseImage :
    ∃ p r, plan twiceOptions (.ofBytes denseImage) .empty sealedStore = (.ok p, r) ∧
      p.ranges.length = 255 := by
  have hlocate : ((layoutFor twiceOptions sealedStore).locate 255 .empty).toOption.map
      List.length = some 255 := by decide +kernel
  obtain ⟨located, hlocated, hlength⟩ := Option.map_eq_some_iff.mp hlocate
  rw [← size_denseImage] at hlocated
  have hsize : denseImage.size ≤ 2 ^ 64 := by
    rw [size_denseImage]
    decide
  obtain ⟨r, hreconcile⟩ := Reader.reconcile_eq (r := .ofSource (.ofBytes denseImage))
    denseImage_delivers hsize RangeSet.canonical_empty (eq_ok_of_toOption hlocated)
  refine ⟨_, r, by rw [plan, hreconcile], ?_⟩
  rw [← hlength, List.filter_eq_self.mpr]
  intro range hrange
  have hinside := (Layout.onPages_of_mem_locate hsize RangeSet.canonical_empty
    (eq_ok_of_toOption hlocated) hrange).2
  rw [size_denseImage] at hinside
  rw [Bool.not_eq_true', Bool.eq_false_iff]
  intro hzero
  have hfirst := Source.isZeroed_slice.mp hzero range.first range.has_first
  have hone := byteOf_denseImage (Nat.lt_of_le_of_lt range.first_le_last hinside)
  exact absurd (hone.symm.trans hfirst) (by decide)

/-- All of 255 ranges fail.  With the plan their failures fill the queue, and a consumer that
waits for the upload to return is not told of its end. -/
theorem finished_dropped_unread :
    let upload := run twiceOptions false none (.ofBytes denseImage) .empty true sealedStore
    ∃ result, upload.result = .ok result ∧
      ∀ outcome bytes percent, .finished outcome bytes percent ∉ upload.events := by
  intro upload
  obtain ⟨p, r, hplan, hlength⟩ := plan_denseImage
  have hsettles : ∀ range ∈ p.ranges, twiceOptions.retry.Settles
      (fun attempt => (sealedStore.disturbance.write range attempt).answer) 1 := by
    intro range _
    have hfinal : twiceOptions.retry.isFinal 1 (.error (.failed .notFound)) = true := by decide
    exact ⟨Nat.one_pos, hfinal, fun j _ _ => by omega⟩
  have hlt : denseImage.size < 2 ^ 64 := by
    rw [size_denseImage]
    decide
  have hsized : sealedStore.Sized denseImage.size := by
    rw [size_denseImage]
    exact ⟨_, rfl, rfl⟩
  have hreturns : ∃ result, upload.result = .ok result ∧ result.failed.Perm (p.losses
      (fun range attempt => (sealedStore.disturbance.write range attempt).answer) fun _ => 1) :=
    run_returns denseImage_delivers hlt RangeSet.canonical_empty (by decide)
      (RetryPolicy.waits_of_maxDelay rfl) hplan
      (follows_disturbance none (Nat.le_of_lt hlt) RangeSet.canonical_empty hplan hsized rfl)
      hsettles nofun
  obtain ⟨result, hresult, hfailed⟩ := hreturns
  refine ⟨result, hresult, ?_⟩
  have hcount : result.failed.length = 255 := by
    rw [hfailed.length_eq, ← hlength]
    exact List.filterMap_length_eq_length.mpr fun _ _ => rfl
  have hupload : upload = .ofSession (Session.complete false
      (Session.start twiceOptions (workers twiceOptions none) p r sealedStore)) := run_of_plan hplan
  clear_value upload
  subst hupload
  obtain ⟨actions, hrun⟩ := Session.drives_complete false
    (Session.start twiceOptions (workers twiceOptions none) p r sealedStore)
  have hended := UploadRun.result?_of_ok hresult
  have hphased := (Session.invariant_run (Session.jittered_of_run hrun) hrun).phased
  refine Session.finished_dropped hrun hended (Session.taken_complete _) ?_
  rw [← Session.failed_of_result? hphased hended, hcount]
  exact Nat.le_refl Session.eventDepth

end Upload
end ImageUpload
