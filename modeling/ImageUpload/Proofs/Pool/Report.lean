import Mathlib.Data.List.Basic
import ImageUpload.Proofs.Pool.Account

/-
What the report of a pool says about its requests.

A worker that died leaves no tally, but it settled at least the request it died over.  So
the report counts as many requests as were accepted exactly if no worker died and nothing
is left in the queue, and then it counts every request: `settled_of_report`.
-/

namespace ImageUpload

variable {ω ε : Type} {J : Float → Prop}

theorem Tally.of_append (a b : List (Settlement ω ε)) :
    Tally.of (a ++ b) =
      ⟨(Tally.of a).completed + (Tally.of b).completed, (Tally.of a).failed ++ (Tally.of b).failed⟩ := by
  unfold Tally.of
  rw [List.countP_append, List.filterMap_append, List.map_append]

namespace Desk

/-- The settled requests that the report of the pool tells of. -/
def reported (d : Desk ω ε) : List (Settlement ω ε) :=
  if d.worker.isDead then [] else d.settled

/-- All of the requests that are settled. -/
def allSettled (desks : List (Desk ω ε)) : List (Settlement ω ε) :=
  desks.flatMap Desk.settled

def allReported (desks : List (Desk ω ε)) : List (Settlement ω ε) :=
  desks.flatMap reported

theorem report_eq {d : Desk ω ε} {outcomes : Nat → List (Outcome ε)}
    (h : d.worker.Agrees outcomes d.settled) (hgone : d.worker.gone = true) :
    d.worker.report = Tally.of d.reported ∧ ∀ x ∈ d.reported, x.fate ≠ .lost := by
  obtain ⟨worker, settled⟩ := d
  cases worker with
  | idle tally => exact nomatch hgone
  | running tally job attempt => exact nomatch hgone
  | waiting tally job attempt e delay => exact nomatch hgone
  | left tally => exact h
  | dead => exact ⟨rfl, nofun⟩

theorem jobs_of_gone {d : Desk ω ε} (hgone : d.worker.gone = true) :
    d.jobs = d.settled.map Settlement.job := by
  obtain ⟨worker, settled⟩ := d
  cases worker with
  | idle tally => exact nomatch hgone
  | running tally job attempt => exact nomatch hgone
  | waiting tally job attempt e delay => exact nomatch hgone
  | left tally => rfl
  | dead => rfl

theorem length_reported_le {d : Desk ω ε} {outcomes : Nat → List (Outcome ε)}
    (h : d.worker.Agrees outcomes d.settled) :
    d.reported.length + (if d.worker.isDead then 1 else 0) ≤ d.settled.length := by
  obtain ⟨worker, settled⟩ := d
  cases worker with
  | idle tally => exact Nat.le_refl _
  | running tally job attempt => exact Nat.le_refl _
  | waiting tally job attempt e delay => exact Nat.le_refl _
  | left tally => exact Nat.le_refl _
  | dead =>
    obtain ⟨x, hx, -⟩ := h
    exact List.length_pos_of_mem hx

theorem length_allReported_le {desks : List (Desk ω ε)} {outcomes : Nat → List (Outcome ε)}
    (h : ∀ d ∈ desks, d.worker.Agrees outcomes d.settled) :
    (allReported desks).length + desks.countP (fun d => d.worker.isDead) ≤
      (allSettled desks).length := by
  induction desks with
  | nil => exact Nat.le_refl 0
  | cons d rest ih =>
    obtain ⟨hd, hrest⟩ := List.forall_mem_cons.mp h
    have hone := length_reported_le hd
    have hmore := ih hrest
    unfold allReported allSettled at hmore ⊢
    rw [List.flatMap_cons, List.flatMap_cons, List.length_append, List.length_append,
      List.countP_cons]
    omega

/-- Without dead workers everything is reported. -/
theorem allReported_eq {desks : List (Desk ω ε)} (h : ∀ d ∈ desks, d.worker.isDead = false) :
    allReported desks = allSettled desks := by
  refine List.flatMap_congr fun d hd => ?_
  unfold reported
  rw [h d hd]
  rfl

end Desk

namespace Pool

variable {p : Pool ω ε} {sent : List (Request ω ε)} {desks : List (Desk ω ε)}

theorem Accounts.gone_of_mem (h : p.Accounts J sent desks) (hgone : p.gone = true) {d : Desk ω ε}
    (hd : d ∈ desks) : d.worker.gone = true := by
  unfold gone at hgone
  rw [h.workers] at hgone
  exact List.all_eq_true.mp hgone _ (List.mem_map_of_mem hd)

/-- The report of a pool without workers adds up what is reported at the desks. -/
theorem Accounts.report_eq (h : p.Accounts J sent desks) (hgone : p.gone = true) :
    Tally.of (Desk.allReported desks) = ⟨p.report.completed, p.report.failed⟩ := by
  have hone : ∀ d ∈ desks, d.worker.report = Tally.of d.reported := fun d hd =>
    (Desk.report_eq (h.agrees d hd) (h.gone_of_mem hgone hd)).1
  have hsum : ∀ l : List (Desk ω ε), (∀ d ∈ l, d.worker.report = Tally.of d.reported) →
      Tally.of (Desk.allReported l) =
        ⟨(((l.map Desk.worker).map Worker.report).map Tally.completed).sum,
          ((l.map Desk.worker).map Worker.report).flatMap Tally.failed⟩ := by
    intro l hl
    induction l with
    | nil => rfl
    | cons d rest ih =>
      obtain ⟨hd, hrest⟩ := List.forall_mem_cons.mp hl
      show Tally.of (d.reported ++ Desk.allReported rest) = _
      rw [Tally.of_append, ih hrest, ← hd]
      rfl
  rw [hsum desks hone]
  simp only [report, h.workers]

theorem Accounts.reported_ne_lost (h : p.Accounts J sent desks) (hgone : p.gone = true) :
    ∀ x ∈ Desk.allReported desks, x.fate ≠ .lost := by
  intro x hx
  obtain ⟨d, hd, hx⟩ := List.mem_flatMap.mp hx
  exact (Desk.report_eq (h.agrees d hd) (h.gone_of_mem hgone hd)).2 x hx

theorem Accounts.report_size (h : p.Accounts J sent desks) (hgone : p.gone = true) :
    p.report.completed + p.report.failed.length = (Desk.allReported desks).length := by
  rw [← Tally.length_of (h.reported_ne_lost hgone), h.report_eq hgone]

theorem Accounts.jobs_of_gone (h : p.Accounts J sent desks) (hgone : p.gone = true) :
    (p.queue ++ (Desk.allSettled desks).map Settlement.job).Perm (numbered sent) := by
  have heach : ∀ d ∈ desks, Desk.jobs d = d.settled.map Settlement.job := fun d hd =>
    Desk.jobs_of_gone (h.gone_of_mem hgone hd)
  have hall : desks.flatMap Desk.jobs = (Desk.allSettled desks).map Settlement.job := by
    unfold Desk.allSettled
    rw [List.map_flatMap]
    exact List.flatMap_congr heach
  rw [← hall]
  exact h.jobs

/-- If the report counts all requests, no worker died and nothing waits. -/
theorem Accounts.whole_of_report (h : p.Accounts J sent desks) (hgone : p.gone = true)
    (hall : sent.length ≤ p.report.completed + p.report.failed.length) :
    p.queue = [] ∧ Desk.allReported desks = Desk.allSettled desks := by
  have hsize := (h.jobs_of_gone hgone).length_eq
  have hle := Desk.length_allReported_le h.agrees
  rw [h.report_size hgone] at hall
  rw [List.length_append, List.length_map, length_numbered] at hsize
  refine ⟨List.length_eq_zero_iff.mp (by omega), ?_⟩
  have hnone : desks.countP (fun d => d.worker.isDead) = 0 := by omega
  exact Desk.allReported_eq fun d hd => Bool.eq_false_iff.mpr (List.countP_eq_zero.mp hnone d hd)

/-- If the report counts all requests, each of them has been settled and none is lost. -/
theorem Accounts.settled_of_report (h : p.Accounts J sent desks) (hgone : p.gone = true)
    (hall : sent.length ≤ p.report.completed + p.report.failed.length) {job : Job ω ε}
    (hjob : sent[job.ticket]? = some job.request) :
    ∃ d ∈ desks, ∃ x ∈ d.settled, x.job = job ∧ x.fate ≠ .lost := by
  obtain ⟨hqueue, hreported⟩ := h.whole_of_report hgone hall
  have hjobs := h.jobs_of_gone hgone
  rw [hqueue, List.nil_append] at hjobs
  obtain ⟨x, hx, heq⟩ := List.mem_map.mp (hjobs.mem_iff.mpr (mem_numbered.mpr hjob))
  obtain ⟨d, hd, hxd⟩ := List.mem_flatMap.mp hx
  exact ⟨d, hd, x, hxd, heq, h.reported_ne_lost hgone x (hreported ▸ hx)⟩

end Pool
end ImageUpload
