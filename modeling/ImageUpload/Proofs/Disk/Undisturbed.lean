import ImageUpload.Proofs.Disk.Run

/-
Steps of which none fails.

No step takes a directory away, so a path that leads somewhere goes on leading there, and a
file that was put at its end can be read: `read_of_leads`.  Steps come up and succeed as long as
the process runs and the record shows no failure: `run_undisturbed`.
-/

namespace ImageUpload
namespace FileTree

/-! ## Directories that stay -/

/-- Every directory of the first tree is one of the second. -/
def Keeps (t t' : FileTree) : Prop :=
  ∀ l, t.node? l = some .directory → t'.node? l = some .directory

theorem Keeps.refl (t : FileTree) : t.Keeps t :=
  fun _ h => h

theorem Keeps.trans {t t' t'' : FileTree} (h : t.Keeps t') (h' : t'.Keeps t'') : t.Keeps t'' :=
  fun l hl => h' l (h l hl)

theorem keeps_set_file {t : FileTree} {l : Location} (hl : l ≠ [])
    (hnode : t.node? l ≠ some .directory) (bytes : SparseBytes) :
    t.Keeps (t.set l (.file bytes)) := by
  intro k hk
  have hne : k ≠ l := fun heq => hnode (heq ▸ hk)
  rw [node?_set t hl, if_neg hne]
  exact hk

theorem keeps_set_directory {t : FileTree} {l : Location} (hl : l ≠ []) :
    t.Keeps (t.set l .directory) := by
  intro k hk
  rw [node?_set t hl]
  split
  · rfl
  · exact hk

theorem keeps_erase {t : FileTree} {l : Location} (hl : l ≠ [])
    (hnode : t.node? l ≠ some .directory) : t.Keeps (t.erase l) := by
  intro k hk
  have hne : k ≠ l := fun heq => hnode (heq ▸ hk)
  rw [node?_erase t hl, if_neg hne]
  exact hk

theorem not_directory_of_bytesAt? {t : FileTree} {l : Location} {bytes : SparseBytes}
    (h : t.bytesAt? l = some bytes) : t.node? l ≠ some .directory := by
  rw [bytesAt?_eq_some.mp h]
  exact nofun

theorem find_place {t : FileTree} {p : Path} {l : Location} {bytes : SparseBytes}
    (h : t.find p = .ok (l, bytes)) : l ≠ [] ∧ t.node? l ≠ some .directory := by
  obtain ⟨htarget, hbytes⟩ := find_ok h
  rw [← htarget] at hbytes
  exact ⟨ne_root_of_bytesAt? hbytes, not_directory_of_bytesAt? hbytes⟩

theorem put_keeps {t t' : FileTree} {p : Path} {bytes : SparseBytes}
    (h : t.put p bytes = .ok t') : t.Keeps t' := by
  obtain ⟨-, hroot, hnode, rfl⟩ := put_cases h
  exact keeps_set_file hroot hnode bytes

theorem alter_keeps {t t' : FileTree} {p : Path} {f : SparseBytes → SparseBytes}
    (h : t.alter p f = .ok t') : t.Keeps t' := by
  obtain ⟨bytes, hfind, rfl⟩ := alter_cases h
  obtain ⟨hroot, hnode⟩ := find_place hfind
  exact keeps_set_file hroot hnode (f bytes)

theorem rename_keeps {t t' : FileTree} {old new : Path} (h : t.rename old new = .ok t') :
    t.Keeps t' := by
  obtain ⟨bytes, hfind, hput⟩ := rename_cases h
  obtain ⟨hroot, hnode⟩ := find_place hfind
  exact (keeps_erase hroot hnode).trans (put_keeps hput)

theorem makeDirectories_keeps (t : FileTree) (p : Path) : t.Keeps (t.makeDirectories p).2 :=
  makeDirectories_related .refl .trans (fun _ _ hroot _ => keeps_set_directory hroot) t p

/-! ## Paths that lead somewhere -/

/-- The path can be followed to its end. -/
def Leads (t : FileTree) (p : Path) : Prop :=
  t.locate p = .ok p.target

theorem followFrom_keeps {t t' : FileTree} (h : t.Keeps t') {l k : Location} {names : List String}
    (hfollow : t.followFrom l names = .ok k) : t'.followFrom l names = .ok k := by
  induction names generalizing l with
  | nil => exact hfollow
  | cons name rest ih =>
    unfold followFrom at hfollow ⊢
    split at hfollow
    next => exact nomatch hfollow
    next => exact nomatch hfollow
    next hdirectory =>
      simp only [h l hdirectory]
      split at hfollow
      next hstays =>
        rw [if_pos hstays]
        exact ih hfollow
      next hmoves =>
        rw [if_neg hmoves]
        split at hfollow
        next hback =>
          rw [if_pos hback]
          exact ih hfollow
        next hdown =>
          rw [if_neg hdown]
          split at hfollow
          next => exact nomatch hfollow
          next hshort =>
            rw [if_neg hshort]
            exact ih hfollow

theorem Leads.keeps {t t' : FileTree} {p : Path} (h : t.Leads p) (hkeeps : t.Keeps t') :
    t'.Leads p := by
  unfold Leads locate at h ⊢
  split at h
  next => exact nomatch h
  next => exact followFrom_keeps hkeeps h

theorem leads_of_locate {t : FileTree} {p : Path} {l : Location} (h : t.locate p = .ok l) :
    t.Leads p :=
  h.trans (congrArg Except.ok (locate_ok h))

theorem put_leads {t t' : FileTree} {p : Path} {bytes : SparseBytes}
    (h : t.put p bytes = .ok t') : t'.Leads p :=
  (leads_of_locate (put_cases h).1).keeps (put_keeps h)

theorem rename_leads {t t' : FileTree} {old new : Path} (h : t.rename old new = .ok t') :
    t'.Leads new := by
  obtain ⟨bytes, -, hput⟩ := rename_cases h
  exact put_leads hput

/-- A file at the end of a path can be read. -/
theorem read_of_leads {t : FileTree} {p : Path} {bytes : SparseBytes} (h : t.Leads p)
    (hbytes : t.bytesAt? p.target = some bytes) : t.read p = .ok bytes := by
  unfold read find
  rw [h]
  simp only [bytesAt?_eq_some.mp hbytes]
  rfl

theorem present_of_leads {t : FileTree} {p : Path} {bytes : SparseBytes} (h : t.Leads p)
    (hbytes : t.bytesAt? p.target = some bytes) : t.present p = .ok true := by
  unfold present
  rw [h]
  simp only [bytesAt?_eq_some.mp hbytes]
  rfl

end FileTree

/-! ## Steps -/

/-- No step takes a directory away. -/
theorem DiskStep.apply_keeps (t : FileTree) (s : DiskStep) : t.Keeps (s.apply t).2 :=
  apply_related .refl FileTree.makeDirectories_keeps FileTree.put_keeps FileTree.alter_keeps
    (fun _ => FileTree.rename_keeps) t

namespace Disk

variable {d d₁ d' : Disk} {s : DiskStep} {steps : List DiskStep} {result : Except FileFault Unit}

/-- A run that succeeds takes its first step, and then goes on. -/
theorem run_ok_cons {u : Unit} (h : d.run (s :: steps) = (.ok u, d')) :
    ∃ d₁ : Disk, s.apply d.files = (.ok (), d₁.files) ∧ d₁.run steps = (.ok u, d') := by
  obtain ⟨f, herror, -⟩ | ⟨_, d₁, hperform, hrun⟩ := run_cons h
  · exact nomatch herror
  · exact ⟨d₁, (perform_ok hperform).1, hrun⟩

theorem run_ok_nil {u : Unit} (h : d.run [] = (.ok u, d')) : d' = d :=
  (Prod.mk.inj h).2.symm

theorem run_keeps (h : d.run steps = (result, d')) : d.files.Keeps d'.files :=
  run_related .refl .trans (fun s _ t => s.apply_keeps t) (fun _ _ t _ s' _ => s'.apply_keeps t) h

/-- The second disk has come from the first without a step that failed. -/
def Undisturbed (d d' : Disk) : Prop :=
  ∃ added, d'.log = d.log ++ added ∧ ∀ w ∈ added, w.result = .ok ()

theorem undisturbed_of_new (hnew : d.log = []) (hok : ∀ w ∈ d'.log, w.result = .ok ()) :
    d.Undisturbed d' :=
  ⟨d'.log, by rw [hnew, List.nil_append], hok⟩

theorem Undisturbed.split (h : d.Undisturbed d') (hfirst : d.log <+: d₁.log)
    (hsecond : d₁.log <+: d'.log) : d.Undisturbed d₁ ∧ d₁.Undisturbed d' := by
  obtain ⟨added, hlog, hok⟩ := h
  obtain ⟨first, hfirst⟩ := hfirst
  obtain ⟨second, hsecond⟩ := hsecond
  rw [← hsecond, ← hfirst, List.append_assoc] at hlog
  obtain rfl := List.append_cancel_left hlog
  exact ⟨⟨first, hfirst.symm, fun w hw => hok w (List.mem_append_left _ hw)⟩,
    ⟨second, hsecond.symm, fun w hw => hok w (List.mem_append_right _ hw)⟩⟩

theorem perform_undisturbed (hrunning : d.stopped = false) (h : d.perform s = (result, d'))
    (hu : d.Undisturbed d') : result = .ok () ∧ d'.stopped = false := by
  obtain ⟨added, hlog, hok⟩ := hu
  have hlast : ∀ {r : Except FileFault Unit}, d'.log = d.log ++ [⟨s, r⟩] → r = .ok () := by
    intro r hr
    rw [hlog] at hr
    obtain rfl := List.append_cancel_left hr
    exact hok _ List.mem_cons_self
  unfold perform at h
  rw [if_neg (by rw [hrunning]; exact nofun)] at h
  split at h
  next =>
    obtain ⟨-, rfl⟩ := Prod.mk.inj h
    exact nomatch hlast rfl
  next =>
    obtain ⟨rfl, rfl⟩ := Prod.mk.inj h
    exact ⟨hlast rfl, hrunning⟩
  next =>
    obtain ⟨rfl, rfl⟩ := Prod.mk.inj h
    exact ⟨hlast rfl, hrunning⟩

/-- While the process runs and nothing fails, every step succeeds and the process runs on. -/
theorem run_undisturbed (hrunning : d.stopped = false) (h : d.run steps = (result, d'))
    (hu : d.Undisturbed d') : result = .ok () ∧ d'.stopped = false := by
  induction steps generalizing d with
  | nil =>
    obtain ⟨rfl, rfl⟩ := Prod.mk.inj h
    exact ⟨rfl, hrunning⟩
  | cons s rest ih =>
    obtain ⟨f, rfl, hperform⟩ | ⟨u, d₁, hperform, hrun⟩ := run_cons h
    · exact nomatch (perform_undisturbed hrunning hperform hu).1
    · obtain ⟨hfirst, hrest⟩ := hu.split (perform_log hperform) (run_log hrun)
      exact ih (perform_undisturbed hrunning hperform hfirst).2 hrun hrest

end Disk
end ImageUpload
