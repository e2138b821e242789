import ImageUpload.Session.Schedule

/-
Ways to take a session to its end.

Every list of actions is such a way, and so is the schedule: what it comes to is a run.
-/

namespace ImageUpload
namespace Session

variable {σ : Type} [PageStore σ]

/-- Whatever comes of a session this way comes of it by a run. -/
def Drives (drive : Session σ → Session σ) : Prop :=
  ∀ s, ∃ actions, s.run actions = some (drive s)

theorem run_append (s : Session σ) (l m : List SessionAction) :
    s.run (l ++ m) = (s.run l).bind (·.run m) := by
  induction l generalizing s with
  | nil => rfl
  | cons a rest ih =>
    show (s.act a).bind (·.run (rest ++ m)) = ((s.act a).bind (·.run rest)).bind (·.run m)
    rw [Option.bind_assoc]
    exact Option.bind_congr fun s _ => ih s

theorem run_cons_of_act {s s' : Session σ} {a : SessionAction} (h : s.act a = some s')
    (l : List SessionAction) : s.run (a :: l) = s'.run l := by
  show (s.act a).bind (·.run l) = s'.run l
  rw [h]
  rfl

/-- The actions of a list, if all of them can happen. -/
theorem drives_actions (actions : List SessionAction) :
    Drives fun s : Session σ => (s.run actions).getD s := by
  intro s
  show ∃ actions', s.run actions' = some ((s.run actions).getD s)
  cases h : s.run actions with
  | none => exact ⟨[], rfl⟩
  | some s' => exact ⟨actions, h⟩

theorem follow_run (watched : Bool) (n : Nat) (s : Session σ) :
    ∃ actions, s.run actions = some (follow watched n s) := by
  induction n generalizing s with
  | zero => exact ⟨[], rfl⟩
  | succ n ih =>
    rw [follow]
    split
    next _ => exact ⟨[], rfl⟩
    next s' h =>
      obtain ⟨a, -, ha⟩ := Option.bind_eq_some_iff.mp h
      obtain ⟨actions, hactions⟩ := ih s'
      exact ⟨a :: actions, (run_cons_of_act ha actions).trans hactions⟩

theorem drives_complete (watched : Bool) : Drives (complete watched : Session σ → Session σ) := by
  intro s
  unfold complete
  cases h : s.tick 0 with
  | none => exact follow_run watched _ s
  | some s' =>
    obtain ⟨actions, hactions⟩ := follow_run watched s.actionLimit s'
    have hact : s.act (.tick 0) = some s' := h
    exact ⟨.tick 0 :: actions, (run_cons_of_act hact actions).trans hactions⟩

end Session
end ImageUpload
