import ImageUpload.Proofs.Disk.Undisturbed

/-
What steps leave standing that may fail.

However far a run comes, what stands at a place goes on standing there unless a step renames it:
`run_retains`.  The record of a run tells of its own steps only, `run_added`, and a step that comes
up while the process runs is on it, `perform_running`.
-/

namespace ImageUpload

namespace FileTree

/-! ## Places that stay taken -/

/-- What stands at the place goes on standing there, if not as it was. -/
def Retains (k : Location) (t t' : FileTree) : Prop :=
  (t.node? k).isSome → (t'.node? k).isSome

variable {t t' : FileTree} {k : Location}

theorem Retains.refl (k : Location) (t : FileTree) : Retains k t t :=
  id

theorem Retains.trans {t'' : FileTree} (h : Retains k t t') (h' : Retains k t' t'') :
    Retains k t t'' :=
  fun hk => h' (h hk)

theorem retains_set {l : Location} (hl : l ≠ []) (n : Node) : Retains k t (t.set l n) := by
  intro hk
  rw [node?_set t hl]
  split
  next => rfl
  next => exact hk

theorem retains_erase {l : Location} (hl : l ≠ []) (hne : k ≠ l) : Retains k t (t.erase l) := by
  intro hk
  rw [node?_erase t hl, if_neg hne]
  exact hk

theorem put_retains {p : Path} {bytes : SparseBytes} (h : t.put p bytes = .ok t') :
    Retains k t t' := by
  obtain ⟨-, hroot, -, rfl⟩ := put_cases h
  exact retains_set hroot _

theorem alter_retains {p : Path} {f : SparseBytes → SparseBytes} (h : t.alter p f = .ok t') :
    Retains k t t' := by
  obtain ⟨bytes, hfind, rfl⟩ := alter_cases h
  exact retains_set (find_place hfind).1 _

theorem rename_retains {old new : Path} (hne : k ≠ old.target) (h : t.rename old new = .ok t') :
    Retains k t t' := by
  obtain ⟨bytes, hfind, hput⟩ := rename_cases h
  exact (retains_erase (find_place hfind).1 hne).trans (put_retains hput)

theorem makeDirectories_retains (t : FileTree) (p : Path) :
    Retains k t (t.makeDirectories p).2 :=
  makeDirectories_related (.refl k) .trans (fun _ _ hroot _ => retains_set hroot _) t p

/-! ## What is found -/

theorem leads_of_find {p : Path} {l : Location} {bytes : SparseBytes}
    (h : t.find p = .ok (l, bytes)) : t.Leads p := by
  unfold find at h
  split at h
  next => exact nomatch h
  next hlocate => exact leads_of_locate hlocate

theorem read_ok_iff {p : Path} {bytes : SparseBytes} :
    t.read p = .ok bytes ↔ t.Leads p ∧ t.bytesAt? p.target = some bytes := by
  refine ⟨fun h => ⟨?_, read_ok h⟩, fun ⟨hleads, hbytes⟩ => read_of_leads hleads hbytes⟩
  unfold read at h
  cases hfind : t.find p with
  | error f =>
    rw [hfind] at h
    exact nomatch h
  | ok found => exact leads_of_find hfind

theorem present_iff {p : Path} :
    t.present p = .ok true ↔ t.Leads p ∧ (t.node? p.target).isSome := by
  unfold present
  constructor
  · intro h
    split at h
    next => exact nomatch h
    next => exact nomatch h
    next l hlocate =>
      have hsome : (t.node? l).isSome = true := Except.ok.inj h
      exact ⟨leads_of_locate hlocate, locate_ok hlocate ▸ hsome⟩
  · rintro ⟨hleads, hsome⟩
    rw [hleads]
    exact congrArg Except.ok hsome

end FileTree

namespace DiskStep

/-- Where a step takes a file away. -/
def vacated : DiskStep → Option Location
  | rename old _ => some old.target
  | _ => none

theorem vacated_begun {s s' : DiskStep} {written : Nat} (h : s.begun written = some s') :
    s'.vacated = none := by
  cases s with
  | writeAt p offset data =>
    obtain rfl := Option.some.inj h
    rfl
  | writeFile p data =>
    obtain rfl := Option.some.inj h
    rfl
  | _ => exact nomatch h

theorem apply_retains (t : FileTree) {s : DiskStep} {k : Location} (h : s.vacated ≠ some k) :
    FileTree.Retains k t (s.apply t).2 := by
  refine apply_related (.refl k) FileTree.makeDirectories_retains FileTree.put_retains
    FileTree.alter_retains (fun hs ht => FileTree.rename_retains (fun hk => h ?_) ht) t
  rw [hs, hk]
  rfl

end DiskStep

namespace Disk

variable {d d' : Disk} {s : DiskStep} {steps : List DiskStep} {result : Except FileFault Unit}

/-! ## Runs -/

theorem run_retains {k : Location} (hk : ∀ s ∈ steps, s.vacated ≠ some k)
    (h : d.run steps = (result, d')) : FileTree.Retains k d.files d'.files := by
  refine run_related (FileTree.Retains.refl k) .trans
    (fun s hs t => DiskStep.apply_retains t (hk s hs)) (fun s _ t written s' hs' => ?_) h
  exact DiskStep.apply_retains t (DiskStep.vacated_begun hs' ▸ nofun)

/-! ## Records -/

theorem perform_added (h : d.perform s = (result, d')) :
    ∃ added, d'.log = d.log ++ added ∧ ∀ r ∈ added, r.step = s := by
  unfold perform at h
  split at h
  next =>
    obtain ⟨-, rfl⟩ := Prod.mk.inj h
    exact ⟨[], (List.append_nil _).symm, nofun⟩
  next =>
    split at h
    all_goals
      obtain ⟨-, rfl⟩ := Prod.mk.inj h
      exact ⟨_, rfl, fun r hr => by rw [List.mem_singleton.mp hr]⟩

/-- The record of a run is one of its own steps. -/
theorem run_added (h : d.run steps = (result, d')) :
    ∃ added, d'.log = d.log ++ added ∧ ∀ r ∈ added, r.step ∈ steps := by
  induction steps generalizing d with
  | nil =>
    obtain ⟨-, rfl⟩ := Prod.mk.inj h
    exact ⟨[], (List.append_nil _).symm, nofun⟩
  | cons s rest ih =>
    have hfirst : ∀ {r d₁}, d.perform s = (r, d₁) →
        ∃ added, d₁.log = d.log ++ added ∧ ∀ r ∈ added, r.step ∈ s :: rest := by
      intro r d₁ hs
      obtain ⟨added, hlog, hadded⟩ := perform_added hs
      exact ⟨added, hlog, fun r hr => hadded r hr ▸ List.mem_cons_self⟩
    obtain ⟨f, -, hs⟩ | ⟨u, d₁, hs, hrest⟩ := run_cons h
    · exact hfirst hs
    · obtain ⟨before, hbefore, hown⟩ := hfirst hs
      obtain ⟨behind, hbehind, hrestOwn⟩ := ih hrest
      refine ⟨before ++ behind, by rw [hbehind, hbefore, List.append_assoc], fun r hr => ?_⟩
      rcases List.mem_append.mp hr with hr | hr
      · exact hown r hr
      · exact List.mem_cons_of_mem s (hrestOwn r hr)

/-- A step comes up while the process runs, and the process runs on if it succeeds. -/
theorem perform_running (hrunning : d.stopped = false) (h : d.perform s = (result, d')) :
    d'.log = d.log ++ [⟨s, result⟩] ∧ (result = .ok () → d'.stopped = false) := by
  unfold perform at h
  rw [if_neg (by rw [hrunning]; exact nofun)] at h
  split at h
  next =>
    obtain ⟨rfl, rfl⟩ := Prod.mk.inj h
    exact ⟨rfl, nofun⟩
  next =>
    obtain ⟨rfl, rfl⟩ := Prod.mk.inj h
    exact ⟨rfl, fun _ => hrunning⟩
  next =>
    obtain ⟨rfl, rfl⟩ := Prod.mk.inj h
    exact ⟨rfl, fun _ => hrunning⟩

/-- No step succeeds once the process has stopped. -/
theorem running_of_perform_ok {u : Unit} (h : d.perform s = (.ok u, d')) : d.stopped = false := by
  unfold perform at h
  split at h
  next => exact nomatch (Prod.mk.inj h).1
  next hrunning => exact eq_false_of_ne_true hrunning

theorem run_running {u : Unit} (hrunning : d.stopped = false)
    (h : d.run steps = (.ok u, d')) : d'.stopped = false := by
  induction steps generalizing d with
  | nil =>
    obtain ⟨-, rfl⟩ := Prod.mk.inj h
    exact hrunning
  | cons s rest ih =>
    obtain ⟨f, herror, -⟩ | ⟨u, d₁, hs, hrest⟩ := run_cons h
    · exact nomatch herror
    · exact ih ((perform_running hrunning hs).2 rfl) hrest

/-- A run that takes a step and succeeds has not met the end of the process. -/
theorem running_of_run_ok {u : Unit} (h : d.run (s :: steps) = (.ok u, d')) :
    d'.stopped = false := by
  obtain ⟨f, herror, -⟩ | ⟨_, d₁, hs, hrest⟩ := run_cons h
  · exact nomatch herror
  · exact run_running ((perform_running (running_of_perform_ok hs) hs).2 rfl) hrest

/-- The first step of a run that begins while the process runs is on its record. -/
theorem run_first (hrunning : d.stopped = false) (h : d.run (s :: steps) = (result, d')) :
    ∃ r rest, d'.log = d.log ++ ⟨s, r⟩ :: rest := by
  obtain ⟨f, -, hs⟩ | ⟨u, d₁, hs, hrest⟩ := run_cons h
  · exact ⟨_, [], (perform_running hrunning hs).1⟩
  · obtain ⟨rest, hrest⟩ := run_log hrest
    refine ⟨.ok u, rest, ?_⟩
    rw [← hrest, (perform_running hrunning hs).1, List.append_assoc]
    rfl

end Disk
end ImageUpload
