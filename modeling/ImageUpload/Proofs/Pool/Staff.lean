import ImageUpload.Proofs.Pool.Account

/-
Who is left in a pool.

A worker leaves when there is nothing more to do for it, and not before: `Staffed.left`.
So a pool that no worker died in is without workers only once it is closed and all of its
requests are taken, or once it is torn down, `Staffed.drained`.
-/

namespace ImageUpload
namespace Pool

variable {ω ε : Type} {p p' : Pool ω ε}

/-- There are workers and there is room in the queue, and a worker that left had nothing
more to do. -/
structure Staffed (p : Pool ω ε) : Prop where
  workers : p.workers ≠ []
  capacity : 0 < p.capacity
  left : ∀ tally, .left tally ∈ p.workers → p.cancelled = true ∨ p.closed = true ∧ p.queue = []

theorem staffed_start (parallelism capacity : Nat) :
    (start parallelism capacity : Pool ω ε).Staffed := by
  refine ⟨?_, Nat.lt_of_lt_of_le Nat.zero_lt_one (Nat.le_max_left 1 capacity), ?_⟩
  · show List.replicate (max 1 parallelism) (Worker.idle .empty : Worker ω ε) ≠ []
    intro hnil
    rw [List.replicate_eq_nil_iff] at hnil
    omega
  · intro tally hmem
    exact nomatch (List.mem_replicate.mp hmem).2

/-- What one worker does keeps the staff, if it leaves only with nothing more to do. -/
theorem Staffed.replace (h : p.Staffed) {i : Nat} {w : Worker ω ε}
    (hworkers : p'.workers = p.workers.set i w) (hcapacity : p'.capacity = p.capacity)
    (hclosed : p'.closed = p.closed) (hcancelled : p'.cancelled = p.cancelled)
    (hqueue : p.queue = [] → p'.queue = [])
    (hleft : ∀ tally, w = .left tally → p.cancelled = true ∨ p.closed = true ∧ p.queue = []) :
    p'.Staffed := by
  refine ⟨?_, hcapacity ▸ h.capacity, fun tally hmem => ?_⟩
  · rw [hworkers]
    intro hnil
    exact h.workers ((List.set_eq_nil_iff i w).mp hnil)
  · have hbefore : p.cancelled = true ∨ p.closed = true ∧ p.queue = [] := by
      rw [hworkers] at hmem
      rcases List.mem_or_eq_of_mem_set hmem with hmem | heq
      · exact h.left tally hmem
      · exact hleft tally heq.symm
    rw [hcancelled, hclosed]
    rcases hbefore with hbefore | ⟨hbefore, hempty⟩
    · exact .inl hbefore
    · exact .inr ⟨hbefore, hqueue hempty⟩

theorem room_of_send {r : Request ω ε} (hp : p.send r = some p') :
    p.closed = false ∧ p.gone = false ∧ p.queue.length < p.capacity := by
  unfold Pool.send at hp
  split at hp
  next _ => exact nomatch hp
  next hroom =>
    rw [Bool.or_eq_true, Bool.or_eq_true, decide_eq_true_eq, not_or, not_or] at hroom
    obtain ⟨⟨hclosed, hgone⟩, hlength⟩ := hroom
    exact ⟨Bool.eq_false_iff.mpr hclosed, Bool.eq_false_iff.mpr hgone, Nat.not_le.mp hlength⟩

theorem Staffed.send (h : p.Staffed) {r : Request ω ε} (hp : p.send r = some p') : p'.Staffed := by
  obtain ⟨hopen, -, -⟩ := room_of_send hp
  rw [send_eq hp]
  refine ⟨h.workers, h.capacity, fun tally hmem => ?_⟩
  rcases h.left tally hmem with hcancelled | ⟨hclosed, -⟩
  · exact .inl hcancelled
  · exact nomatch hopen.symm.trans hclosed

theorem Staffed.close (h : p.Staffed) {cancelled : Bool}
    (hc : p.cancelled = true → cancelled = true) :
    ({ p with closed := true, cancelled := cancelled } : Pool ω ε).Staffed := by
  refine ⟨h.workers, h.capacity, fun tally hmem => ?_⟩
  rcases h.left tally hmem with hcancelled | ⟨-, hempty⟩
  · exact .inl (hc hcancelled)
  · exact .inr ⟨rfl, hempty⟩

theorem Staffed.cancel (h : p.Staffed) : ({ p with cancelled := true } : Pool ω ε).Staffed :=
  ⟨h.workers, h.capacity, fun _ _ => .inl rfl⟩

theorem Staffed.move (h : p.Staffed) (hp : p.Moves p') : p'.Staffed := by
  cases hp with
  | take i tally job rest hw hq hcancelled =>
    refine h.replace rfl rfl rfl rfl (fun hempty => ?_) (fun _ => nofun)
    rw [hq] at hempty
    exact nomatch hempty
  | wake i tally job attempt e delay hw hcancelled =>
    exact h.replace rfl rfl rfl rfl (fun hempty => hempty) (fun _ => nofun)
  | abandon i tally job attempt e delay hw hcancelled =>
    exact h.replace rfl rfl rfl rfl (fun hempty => hempty) (fun _ => nofun)
  | leave i tally hw hidle =>
    exact h.replace rfl rfl rfl rfl (fun hempty => hempty) (fun _ _ => hidle)

theorem Staffed.finish (h : p.Staffed) {i : Nat} {o : Outcome ε} {jitter : Float}
    (hp : p.finish i o jitter = some p') : p'.Staffed := by
  obtain ⟨tally, job, attempt, hw, hcases⟩ := finish_cases (J := fun _ => True) trivial hp
  rcases hcases with ⟨fate, -, rfl⟩ | ⟨e, delay, -, -, rfl⟩
  · refine h.replace rfl rfl rfl rfl (fun hempty => hempty) (fun left heq => ?_)
    cases fate with
    | completed => exact nomatch heq
    | failed e => exact nomatch heq
    | lost => exact nomatch heq
  · exact h.replace rfl rfl rfl rfl (fun hempty => hempty) (fun _ => nofun)

theorem staffed_act {a : PoolAction ω ε} (h : p.Staffed) (hp : p.act a = some p') :
    p'.Staffed := by
  cases a with
  | send r => exact h.send hp
  | close =>
    injection hp with hp
    exact hp ▸ h.close id
  | tearDown =>
    injection hp with hp
    exact hp ▸ h.cancel
  | finish i o jitter => exact h.finish hp
  | take i => exact h.move (moves_of_take hp)
  | wake i => exact h.move (moves_of_wake hp)
  | abandon i => exact h.move (moves_of_abandon hp)
  | leave i => exact h.move (moves_of_leave hp)

/-- If no worker died, all of them left, and so there was nothing more to do. -/
theorem Staffed.drained (h : p.Staffed) (hgone : p.gone = true) (hdead : .dead ∉ p.workers) :
    p.cancelled = true ∨ p.closed = true ∧ p.queue = [] := by
  obtain ⟨w, hw⟩ := List.exists_mem_of_ne_nil _ h.workers
  have hwgone : w.gone = true := List.all_eq_true.mp hgone w hw
  cases w with
  | idle tally => exact nomatch hwgone
  | running tally job attempt => exact nomatch hwgone
  | waiting tally job attempt e delay => exact nomatch hwgone
  | left tally => exact h.left tally hw
  | dead => exact absurd hw hdead

theorem Staffed.closed_of_gone (h : p.Staffed) (hgone : p.gone = true)
    (hcancelled : p.cancelled = false) (hdead : .dead ∉ p.workers) :
    p.closed = true ∧ p.queue = [] := by
  refine (h.drained hgone hdead).resolve_left fun htrue => ?_
  exact nomatch hcancelled.symm.trans htrue

theorem eq_dead_of_isDead {w : Worker ω ε} (h : w.isDead = true) : w = .dead := by
  cases w with
  | dead => rfl
  | idle tally => exact nomatch h
  | running tally job attempt => exact nomatch h
  | waiting tally job attempt e delay => exact nomatch h
  | left tally => exact nomatch h

/-- A worker dies over a request that is lost. -/
theorem Accounts.not_dead {J : Float → Prop} {sent : List (Request ω ε)} {desks : List (Desk ω ε)}
    (h : p.Accounts J sent desks) (hkept : ∀ d ∈ desks, ∀ x ∈ d.settled, x.fate ≠ .lost) :
    .dead ∉ p.workers := by
  intro hmem
  rw [h.workers] at hmem
  obtain ⟨d, hd, hdead⟩ := List.mem_map.mp hmem
  have hagrees := h.agrees d hd
  rw [hdead] at hagrees
  obtain ⟨x, hx, hlost⟩ := hagrees
  exact hkept d hd x hx hlost

end Pool
end ImageUpload
