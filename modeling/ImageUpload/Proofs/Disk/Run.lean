import ImageUpload.Disk.Basic
import ImageUpload.Proofs.Disk.FileTree

/-
What a run of steps on a troubled disk does to the files.

A step changes no file but those it names, whether it succeeds, fails half-way or never
comes up: `perform_elsewhere`.  What relates the files before and after every step, whether it
is taken as a whole or only begun, relates those before and after a run: `run_related`.  A file
that is written aside and then moved into place is replaced as a whole or not at all:
`run_replace`.
-/

namespace ImageUpload

/-! ## One step -/

namespace DiskStep

/-- The locations of the files that a step may change. -/
def touched : DiskStep → List Location
  | truncate p => [p.target]
  | setLength p _ => [p.target]
  | writeAt p _ _ => [p.target]
  | writeFile p _ => [p.target]
  | rename old new => [old.target, new.target]
  | _ => []

theorem touched_begun {s s' : DiskStep} {written : Nat} (h : s.begun written = some s') :
    s'.touched = s.touched := by
  cases s with
  | writeAt p offset data =>
    obtain rfl := Option.some.inj h
    rfl
  | writeFile p data =>
    obtain rfl := Option.some.inj h
    rfl
  | _ => exact nomatch h

theorem whole_cases (t : FileTree) (r : Except FileFault FileTree) :
    (∃ f, r = .error f ∧ whole t r = (.error f, t)) ∨
      ∃ t', r = .ok t' ∧ whole t r = (.ok (), t') := by
  cases r with
  | error f => exact .inl ⟨f, rfl, rfl⟩
  | ok t' => exact .inr ⟨t', rfl, rfl⟩

theorem whole_ok {t t' : FileTree} {r : Except FileFault FileTree} {u : Unit}
    (h : whole t r = (.ok u, t')) : r = .ok t' := by
  obtain ⟨f, -, hwhole⟩ | ⟨t'', hr, hwhole⟩ := whole_cases t r
  · rw [hwhole] at h
    exact nomatch h
  · rw [hwhole] at h
    rw [hr, (Prod.mk.inj h).2]

/-- A change that is not made relates the files to themselves. -/
theorem whole_related {R : FileTree → FileTree → Prop} (hrefl : ∀ t, R t t) {t : FileTree}
    {r : Except FileFault FileTree} (h : ∀ t', r = .ok t' → R t t') : R t (whole t r).2 := by
  obtain ⟨f, -, hwhole⟩ | ⟨t', hr, hwhole⟩ := whole_cases t r
  · rw [hwhole]
    exact hrefl t
  · rw [hwhole]
    exact h t' hr

/-- Nothing else changes if the change itself touches nothing else. -/
theorem bytesAt?_whole {t : FileTree} {r : Except FileFault FileTree} {k : Location}
    (h : ∀ t', r = .ok t' → t'.bytesAt? k = t.bytesAt? k) :
    (whole t r).2.bytesAt? k = t.bytesAt? k :=
  whole_related (R := fun t t' => t'.bytesAt? k = t.bytesAt? k) (fun _ => rfl) h

/-- The files before and after a step are related if making directories, putting a file, altering
one and, where the step is one, renaming relate them. -/
theorem apply_related {R : FileTree → FileTree → Prop} (hrefl : ∀ t, R t t)
    (hmake : ∀ (t : FileTree) p, R t (t.makeDirectories p).2)
    (hput : ∀ {t t' : FileTree} {p bytes}, t.put p bytes = .ok t' → R t t')
    (halter : ∀ {t t' : FileTree} {p f}, t.alter p f = .ok t' → R t t') {s : DiskStep}
    (hrename : ∀ {t t' : FileTree} {old new}, s = .rename old new → t.rename old new = .ok t' →
      R t t') (t : FileTree) : R t (s.apply t).2 := by
  cases s with
  | makeDirectories p => exact hmake t p
  | truncate p => exact whole_related hrefl fun _ ht => hput ht
  | setLength p n =>
    show R t (if _ then _ else _ : Except FileFault Unit × FileTree).2
    split
    next => exact hrefl t
    next => exact whole_related hrefl fun _ ht => halter ht
  | sync p => exact hrefl t
  | openForWriting p => exact hrefl t
  | seek p offset =>
    show R t (if _ then _ else _ : Except FileFault Unit × FileTree).2
    split
    next => exact hrefl t
    next => exact hrefl t
  | writeAt p offset data => exact whole_related hrefl fun _ ht => halter ht
  | writeFile p data => exact whole_related hrefl fun _ ht => hput ht
  | rename old new => exact whole_related hrefl fun _ ht => hrename rfl ht

theorem apply_elsewhere (t : FileTree) (s : DiskStep) {k : Location} (h : k ∉ s.touched) :
    (s.apply t).2.bytesAt? k = t.bytesAt? k := by
  cases s with
  | makeDirectories p => exact t.bytesAt?_makeDirectories p k
  | truncate p =>
    have hk : k ≠ p.target := List.ne_of_not_mem_cons h
    exact bytesAt?_whole fun t' ht => (FileTree.put_ok ht k).trans (if_neg hk)
  | setLength p n =>
    have hk : k ≠ p.target := List.ne_of_not_mem_cons h
    show (if _ then _ else _ : Except FileFault Unit × FileTree).2.bytesAt? k = _
    split
    next => rfl
    next =>
      refine bytesAt?_whole fun t' ht => ?_
      obtain ⟨_, -, hbytes⟩ := FileTree.alter_ok ht
      exact (hbytes k).trans (if_neg hk)
  | sync p => rfl
  | openForWriting p => rfl
  | seek p offset =>
    show (if _ then _ else _ : Except FileFault Unit × FileTree).2.bytesAt? k = _
    split
    next => rfl
    next => rfl
  | writeAt p offset data =>
    have hk : k ≠ p.target := List.ne_of_not_mem_cons h
    refine bytesAt?_whole fun t' ht => ?_
    obtain ⟨_, -, hbytes⟩ := FileTree.alter_ok ht
    exact (hbytes k).trans (if_neg hk)
  | writeFile p data =>
    have hk : k ≠ p.target := List.ne_of_not_mem_cons h
    exact bytesAt?_whole fun t' ht => (FileTree.put_ok ht k).trans (if_neg hk)
  | rename old new =>
    have hold : k ≠ old.target := List.ne_of_not_mem_cons h
    have hnew : k ≠ new.target := List.ne_of_not_mem_cons (List.not_mem_of_not_mem_cons h)
    refine bytesAt?_whole fun t' ht => ?_
    obtain ⟨_, -, hbytes⟩ := FileTree.rename_ok ht
    rw [hbytes, if_neg hnew, if_neg hold]

/-- A file is only ever given a length that a file can have. -/
theorem lt_of_setLength_ok {t t' : FileTree} {p : Path} {n : Nat}
    (h : (setLength p n).apply t = (.ok (), t')) : n < FileTree.largest := by
  rw [apply] at h
  split at h
  next => exact nomatch h
  next hlt => exact Nat.not_le.mp hlt

theorem alter_of_setLength_ok {t t' : FileTree} {p : Path} {n : Nat}
    (h : (setLength p n).apply t = (.ok (), t')) : t.alter p (·.resize n) = .ok t' := by
  rw [apply] at h
  split at h
  next => exact nomatch h
  next => exact whole_ok h

theorem files_of_seek_ok {t t' : FileTree} {p : Path} {offset : Nat}
    (h : (seek p offset).apply t = (.ok (), t')) : t' = t := by
  rw [apply] at h
  split at h
  next => exact nomatch h
  next => exact (Prod.mk.inj h).2.symm

end DiskStep

namespace Disk

variable {d d' : Disk} {s : DiskStep} {steps : List DiskStep} {result : Except FileFault Unit}

theorem attempt_ok {t t' : FileTree} {s : DiskStep} {failure : Option (Nat × String)} {u : Unit}
    (h : attempt t s failure = (.ok u, t')) : s.apply t = (.ok u, t') := by
  cases failure with
  | none => exact h
  | some f => exact nomatch h

theorem attempt_elsewhere (t : FileTree) (s : DiskStep) (failure : Option (Nat × String))
    {k : Location} (h : k ∉ s.touched) : (attempt t s failure).2.bytesAt? k = t.bytesAt? k := by
  cases failure with
  | none => exact s.apply_elsewhere t h
  | some f =>
    show (leave t s f.1).bytesAt? k = _
    unfold leave
    split
    next => rfl
    next s' hbegun => exact s'.apply_elsewhere t (DiskStep.touched_begun hbegun ▸ h)

/-- A step comes up, or the process has stopped by then. -/
theorem perform_cases (h : d.perform s = (result, d')) :
    (result = .error halted ∧ d'.files = d.files ∧ d.log <+: d'.log) ∨
      ((∃ failure, attempt d.files s failure = (result, d'.files)) ∧
        d'.log = d.log ++ [⟨s, result⟩]) := by
  unfold perform at h
  split at h
  next =>
    obtain ⟨rfl, rfl⟩ := Prod.mk.inj h
    exact .inl ⟨rfl, rfl, List.prefix_rfl⟩
  next =>
    split at h
    next =>
      obtain ⟨rfl, rfl⟩ := Prod.mk.inj h
      exact .inl ⟨rfl, rfl, List.prefix_append ..⟩
    next written reason _ =>
      obtain ⟨rfl, rfl⟩ := Prod.mk.inj h
      exact .inr ⟨⟨some (written, reason), rfl⟩, rfl⟩
    next =>
      obtain ⟨rfl, rfl⟩ := Prod.mk.inj h
      exact .inr ⟨⟨none, rfl⟩, rfl⟩

theorem perform_ok {u : Unit} (h : d.perform s = (.ok u, d')) :
    s.apply d.files = (.ok u, d'.files) ∧ d'.log = d.log ++ [⟨s, .ok ()⟩] := by
  obtain ⟨herror, -⟩ | ⟨⟨failure, hattempt⟩, hlog⟩ := perform_cases h
  · exact nomatch herror
  · exact ⟨attempt_ok hattempt, hlog⟩

theorem perform_elsewhere (h : d.perform s = (result, d')) {k : Location} (hk : k ∉ s.touched) :
    d'.files.bytesAt? k = d.files.bytesAt? k := by
  obtain ⟨-, hfiles, -⟩ | ⟨⟨failure, hattempt⟩, -⟩ := perform_cases h
  · rw [hfiles]
  · have helsewhere := attempt_elsewhere d.files s failure hk
    rw [hattempt] at helsewhere
    exact helsewhere

/-- A file is moved or stays where it is. -/
theorem perform_rename_error {old new : Path} {f : FileFault}
    (h : d.perform (.rename old new) = (.error f, d')) : d'.files = d.files := by
  obtain ⟨-, hfiles, -⟩ | ⟨⟨failure, hattempt⟩, -⟩ := perform_cases h
  · exact hfiles
  · cases failure with
    | some _ => exact (Prod.mk.inj hattempt).2.symm
    | none =>
      have happly : DiskStep.whole d.files (d.files.rename old new) = (.error f, d'.files) := hattempt
      obtain ⟨_, -, hwhole⟩ | ⟨_, -, hwhole⟩ := DiskStep.whole_cases d.files (d.files.rename old new)
      · rw [hwhole] at happly
        exact (Prod.mk.inj happly).2.symm
      · rw [hwhole] at happly
        exact nomatch happly

/-! ## Runs -/

theorem run_cons (h : d.run (s :: steps) = (result, d')) :
    (∃ f, result = .error f ∧ d.perform s = (.error f, d')) ∨
      ∃ u d₁, d.perform s = (.ok u, d₁) ∧ d₁.run steps = (result, d') := by
  unfold run at h
  split at h
  next f d₁ hperform =>
    obtain ⟨rfl, rfl⟩ := Prod.mk.inj h
    exact .inl ⟨f, rfl, hperform⟩
  next u d₁ hperform => exact .inr ⟨u, d₁, hperform, h⟩

theorem run_append {first second : List DiskStep} (h : d.run (first ++ second) = (result, d')) :
    (∃ f, result = .error f ∧ d.run first = (.error f, d')) ∨
      ∃ u d₁, d.run first = (.ok u, d₁) ∧ d₁.run second = (result, d') := by
  induction first generalizing d with
  | nil => exact .inr ⟨(), d, rfl, h⟩
  | cons s rest ih =>
    obtain ⟨f, hresult, hperform⟩ | ⟨u, d₁, hperform, hrun⟩ := run_cons h
    · refine .inl ⟨f, hresult, ?_⟩
      unfold run
      rw [hperform]
    · have hfirst : d.run (s :: rest) = d₁.run rest := by
        rw [run, hperform]
      rw [hfirst]
      exact ih hrun

/-- Every step of a run that succeeds is on the record, and has succeeded. -/
theorem run_ok_log {u : Unit} (h : d.run steps = (.ok u, d')) :
    d'.log = d.log ++ steps.map fun s => ⟨s, .ok ()⟩ := by
  induction steps generalizing d with
  | nil =>
    obtain ⟨-, rfl⟩ := Prod.mk.inj h
    exact (List.append_nil _).symm
  | cons s rest ih =>
    obtain ⟨f, herror, -⟩ | ⟨_, d₁, hperform, hrun⟩ := run_cons h
    · exact nomatch herror
    · rw [ih hrun, (perform_ok hperform).2, List.append_assoc]
      rfl

theorem perform_log (h : d.perform s = (result, d')) : d.log <+: d'.log := by
  obtain ⟨-, -, hlog⟩ | ⟨-, hlog⟩ := perform_cases h
  · exact hlog
  · exact ⟨_, hlog.symm⟩

/-- A run takes nothing off the record. -/
theorem run_log (h : d.run steps = (result, d')) : d.log <+: d'.log := by
  induction steps generalizing d with
  | nil =>
    obtain ⟨-, rfl⟩ := Prod.mk.inj h
    exact List.prefix_rfl
  | cons s rest ih =>
    obtain ⟨f, -, hfirst⟩ | ⟨_, d₁, hfirst, hrun⟩ := run_cons h
    · exact perform_log hfirst
    · exact (perform_log hfirst).trans (ih hrun)

theorem run_elsewhere (h : d.run steps = (result, d')) {k : Location}
    (hk : ∀ s ∈ steps, k ∉ s.touched) : d'.files.bytesAt? k = d.files.bytesAt? k := by
  induction steps generalizing d with
  | nil =>
    obtain ⟨-, rfl⟩ := Prod.mk.inj h
    rfl
  | cons s rest ih =>
    obtain ⟨hs, hrest⟩ := List.forall_mem_cons.mp hk
    obtain ⟨f, -, hperform⟩ | ⟨_, d₁, hperform, hrun⟩ := run_cons h
    · exact perform_elsewhere hperform hs
    · exact (ih hrun hrest).trans (perform_elsewhere hperform hs)

/-- A run leads from one tree to a related one if each of its steps does, and each beginning of a
step. -/
theorem run_related {R : FileTree → FileTree → Prop} (hrefl : ∀ t, R t t)
    (htrans : ∀ {t t' t''}, R t t' → R t' t'' → R t t'')
    (hstep : ∀ s ∈ steps, ∀ t, R t (s.apply t).2)
    (hbegun : ∀ s ∈ steps, ∀ t written s', s.begun written = some s' → R t (s'.apply t).2)
    (h : d.run steps = (result, d')) : R d.files d'.files := by
  have hattempt : ∀ s ∈ steps, ∀ t failure, R t (attempt t s failure).2 := by
    intro s hs t failure
    cases failure with
    | none => exact hstep s hs t
    | some f =>
      show R t (leave t s f.1)
      unfold leave
      split
      next => exact hrefl t
      next s' hs' => exact hbegun s hs t f.1 s' hs'
  clear hstep hbegun
  induction steps generalizing d with
  | nil =>
    obtain ⟨-, rfl⟩ := Prod.mk.inj h
    exact hrefl d.files
  | cons s rest ih =>
    have hperform : ∀ {r d₁}, d.perform s = (r, d₁) → R d.files d₁.files := by
      intro r d₁ hs
      obtain ⟨-, hfiles, -⟩ | ⟨⟨failure, hfiles⟩, -⟩ := perform_cases hs
      · exact hfiles ▸ hrefl d.files
      · have hrelated := hattempt s List.mem_cons_self d.files failure
        rw [hfiles] at hrelated
        exact hrelated
    obtain ⟨f, -, hs⟩ | ⟨u, d₁, hs, hrest⟩ := run_cons h
    · exact hperform hs
    · exact htrans (hperform hs)
        (ih hrest fun s' hs' => hattempt s' (List.mem_cons_of_mem s hs'))

/-- Every step of a run that succeeds succeeds on some files. -/
theorem run_ok_apply {u : Unit} (h : d.run steps = (.ok u, d')) (hs : s ∈ steps) :
    ∃ t t', s.apply t = (.ok (), t') := by
  induction steps generalizing d with
  | nil => exact nomatch hs
  | cons first rest ih =>
    obtain ⟨f, herror, -⟩ | ⟨_, d₁, hperform, hrun⟩ := run_cons h
    · exact nomatch herror
    · rcases List.mem_cons.mp hs with rfl | hs
      · exact ⟨_, _, (perform_ok hperform).1⟩
      · exact ih hrun hs

/-- A file that is written aside and moved into place stays as it is, or it is replaced as a
whole. -/
theorem run_replace {aside place : Path} {data : ByteArray} (hne : place.target ≠ aside.target)
    (h : d.run [.writeFile aside data, .rename aside place] = (result, d')) :
    (∃ f, result = .error f ∧ d'.files.bytesAt? place.target = d.files.bytesAt? place.target) ∨
      (result = .ok () ∧ d'.files.bytesAt? place.target = some (.ofBytes data)) := by
  have hplace : place.target ∉ (DiskStep.writeFile aside data).touched :=
    List.not_mem_cons_of_ne_of_not_mem hne List.not_mem_nil
  obtain ⟨f, hresult, hwrite⟩ | ⟨u, d₁, hwrite, hrest⟩ := run_cons h
  · exact .inl ⟨f, hresult, perform_elsewhere hwrite hplace⟩
  · obtain ⟨f, hresult, hrename⟩ | ⟨v, d₂, hrename, hend⟩ := run_cons hrest
    · refine .inl ⟨f, hresult, ?_⟩
      rw [perform_rename_error hrename]
      exact perform_elsewhere hwrite hplace
    · obtain ⟨rfl, rfl⟩ := Prod.mk.inj hend
      have haside : d₁.files.bytesAt? aside.target = some (.ofBytes data) := by
        rw [FileTree.put_ok (DiskStep.whole_ok (perform_ok hwrite).1), if_pos rfl]
      obtain ⟨bytes, hbytes, hmoved⟩ :=
        FileTree.rename_ok (DiskStep.whole_ok (perform_ok hrename).1)
      rw [haside] at hbytes
      obtain rfl := Option.some.inj hbytes
      exact .inr ⟨rfl, by rw [hmoved, if_pos rfl]⟩

end Disk
end ImageUpload
