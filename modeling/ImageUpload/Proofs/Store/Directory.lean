import ImageUpload.Store.Directory
import ImageUpload.Proofs.Disk.Run

/-
What each call on a store in a directory does to its two files and to what the store knows.

The sidecar, the file beside it and the data file are three places, whatever the name of the
object is: `open?_apart`.  So only the last step of a call changes the sidecar, and each call
has few outcomes: `create_cases`, `write_cases`, `setContentHash_cases` and `reopen_ok`.
-/

namespace ImageUpload

/-! ## The three paths -/

namespace Path

theorem namesFrom_of_no_slash {known letters : List Char} (h : '/' ∉ letters) :
    namesFrom known letters = [String.ofList (known.reverse ++ letters)] := by
  induction letters generalizing known with
  | nil => rw [namesFrom, List.append_nil]
  | cons c rest ih =>
    have hc : c ≠ '/' := fun heq => h (heq ▸ List.mem_cons_self)
    rw [namesFrom, if_neg hc, ih fun hmem => h (List.mem_cons_of_mem _ hmem), List.reverse_cons,
      List.append_assoc]
    rfl

/-- Letters behind a text are letters behind its last name. -/
theorem namesFrom_append {letters : List Char} (h : '/' ∉ letters) (known text : List Char) :
    ∃ base name, namesFrom known text = base ++ [name] ∧
      namesFrom known (text ++ letters) = base ++ [name ++ String.ofList letters] := by
  induction text generalizing known with
  | nil =>
    refine ⟨[], String.ofList known.reverse, rfl, ?_⟩
    rw [List.nil_append, namesFrom_of_no_slash h, String.ofList_append]
    rfl
  | cons c rest ih =>
    by_cases hc : c = '/'
    · obtain ⟨base, name, hshort, hlong⟩ := ih []
      refine ⟨String.ofList known.reverse :: base, name, ?_, ?_⟩
      · rw [namesFrom, if_pos hc, hshort]
        rfl
      · rw [List.cons_append, namesFrom, if_pos hc, hlong]
        rfl
    · obtain ⟨base, name, hshort, hlong⟩ := ih (c :: known)
      refine ⟨base, name, ?_, ?_⟩
      · rw [namesFrom, if_neg hc, hshort]
      · rw [List.cons_append, namesFrom, if_neg hc, hlong]

theorem join_append (p : Path) (text : String) {letters : String} (h : '/' ∉ letters.toList) :
    ∃ base name, p.join text = base ++ [name] ∧
      p.join (text ++ letters) = base ++ [name ++ letters] := by
  unfold join names
  rw [String.toList_append]
  cases htext : text.toList with
  | nil =>
    obtain ⟨base, name, hshort, hlong⟩ := namesFrom_append h [] []
    have hhead : letters.toList.head? ≠ some '/' := fun heq => h (List.mem_of_head? heq)
    refine ⟨p ++ base, name, ?_, ?_⟩
    · rw [if_neg nofun, hshort, List.append_assoc]
    · rw [List.nil_append, if_neg hhead, List.append_assoc]
      rw [List.nil_append, String.ofList_toList] at hlong
      rw [hlong]
  | cons c rest =>
    by_cases hc : c = '/'
    · obtain ⟨base, name, hshort, hlong⟩ := namesFrom_append h [] rest
      rw [String.ofList_toList] at hlong
      have hhead : (c :: rest).head? = some '/' := congrArg some hc
      refine ⟨base, name, ?_, ?_⟩
      · rw [if_pos hhead, namesFrom, if_pos hc, ← hshort]
        rfl
      · have hlonger : (c :: (rest ++ letters.toList)).head? = some '/' := congrArg some hc
        rw [List.cons_append, if_pos hlonger, namesFrom, if_pos hc, ← hlong]
        rfl
    · obtain ⟨base, name, hshort, hlong⟩ := namesFrom_append h [] (c :: rest)
      rw [String.ofList_toList] at hlong
      have hhead : ∀ {l : List Char}, (c :: l).head? ≠ some '/' :=
        fun heq => hc (Option.some.inj heq)
      refine ⟨p ++ base, name, ?_, ?_⟩
      · rw [if_neg hhead, hshort, List.append_assoc]
      · rw [List.cons_append, if_neg hhead, ← List.cons_append, hlong, List.append_assoc]

theorem appendToName_concat (p : Path) (name letters : String) :
    appendToName (p ++ [name]) letters = p ++ [name ++ letters] := by
  unfold appendToName
  rw [List.dropLast_concat, List.getLast?_concat]
  rfl

end Path

/-- A name of more than two letters leads down. -/
theorem Location.enter_of_long (l : Location) {name : String} (h : 2 < name.length) :
    l.enter name = l ++ [name] := by
  unfold enter
  rw [if_neg, if_neg]
  · rintro rfl
    exact absurd h (by decide)
  · intro hstays
    rcases of_decide_eq_true hstays with rfl | rfl
    · exact absurd h (by decide)
    · exact absurd h (by decide)

/-- No name leads where a longer one does. -/
theorem Location.enter_ne_append (l : Location) (name : String) {letters : String}
    (h : 0 < letters.length) : l ++ [name ++ letters] ≠ l.enter name := by
  unfold enter
  split
  next =>
    intro heq
    have hlength := congrArg List.length heq
    rw [List.length_append, List.length_singleton] at hlength
    omega
  next =>
    split
    next =>
      intro heq
      have hlength := congrArg List.length heq
      rw [List.length_append, List.length_singleton, List.length_dropLast] at hlength
      omega
    next =>
      intro heq
      have hname := congrArg String.length (List.append_singleton_inj.mp heq).2
      rw [String.length_append] at hname
      omega

namespace DirectoryStore

/-- Neither the data file nor the file beside the sidecar is the sidecar. -/
structure Apart (dataPath sidecarPath : Path) : Prop where
  data : sidecarPath.target ≠ dataPath.target
  temporary : sidecarPath.target ≠ (sidecarPath.appendToName ".tmp").target

theorem load_ok {files : FileTree} {dataPath sidecarPath : Path} {c : Sidecar}
    (h : load files dataPath sidecarPath = .ok (some c)) :
    ∃ bytes, files.bytesAt? sidecarPath.target = some bytes ∧
      Sidecar.ofBytes? bytes.toBytes = some c := by
  unfold load at h
  split at h
  next => exact nomatch h
  next => exact nomatch h
  next bytes hread =>
    split at h
    next => exact nomatch h
    next c' hc =>
      split at h
      next => exact nomatch h
      next =>
        obtain rfl := Option.some.inj (Except.ok.inj h)
        exact ⟨bytes, FileTree.read_ok hread, hc⟩
      next => exact nomatch h

theorem open?_ok {disk : Disk} {directory : Path} {name : String} {page : Nat} {s : DirectoryStore}
    (h : open? disk directory name page = .ok s) :
    s.disk = disk ∧ s.dataPath = directory.join name ∧
      s.sidecarPath = directory.join (name ++ suffix) ∧
      load disk.files s.dataPath s.sidecarPath = .ok s.state := by
  unfold open? at h
  dsimp only at h
  split at h
  next => exact nomatch h
  next state hload =>
    obtain rfl := Except.ok.inj h
    exact ⟨rfl, rfl, rfl, hload⟩

theorem open?_names {disk : Disk} {directory : Path} {name : String} {page : Nat}
    {s : DirectoryStore} (h : open? disk directory name page = .ok s) :
    ∃ base last, s.dataPath = base ++ [last] ∧ s.sidecarPath = base ++ [last ++ suffix] := by
  obtain ⟨-, hdata, hsidecar, -⟩ := open?_ok h
  have hslash : '/' ∉ suffix.toList := by decide
  obtain ⟨base, last, hshort, hlong⟩ := directory.join_append name hslash
  exact ⟨base, last, hdata.trans hshort, hsidecar.trans hlong⟩

theorem length_suffix_lt (last : String) : 2 < (last ++ suffix).length := by
  have hsuffix : suffix.length = 14 := rfl
  rw [String.length_append]
  omega

theorem target_sidecar (base : Path) (last : String) :
    Path.target (base ++ [last ++ suffix]) = Path.target base ++ [last ++ suffix] := by
  rw [Path.target_concat, Location.enter_of_long _ (length_suffix_lt last)]

theorem target_temporary (base : Path) (last : String) :
    Path.target (Path.appendToName (base ++ [last ++ suffix]) ".tmp") =
      Path.target base ++ [last ++ suffix ++ ".tmp"] := by
  have hlong : 2 < (last ++ suffix ++ ".tmp").length := by
    have hsuffix := length_suffix_lt last
    rw [String.length_append]
    omega
  rw [Path.appendToName_concat, Path.target_concat, Location.enter_of_long _ hlong]

theorem open?_apart {disk : Disk} {directory : Path} {name : String} {page : Nat}
    {s : DirectoryStore} (h : open? disk directory name page = .ok s) :
    Apart s.dataPath s.sidecarPath := by
  obtain ⟨base, last, hdata, hsidecar⟩ := open?_names h
  constructor
  · rw [hsidecar, target_sidecar, hdata, Path.target_concat]
    exact Location.enter_ne_append _ last (by decide)
  · rw [hsidecar, target_temporary, Path.target_concat]
    exact (Location.enter_ne_append _ (last ++ suffix) (by decide)).symm

/-! ## Calls -/

variable {s s' : DirectoryStore} {answer : Except StorageError Unit}

/-- The store after steps on its disk. -/
theorem perform_cases {steps : List DiskStep} (h : s.perform steps = (answer, s')) :
    ∃ disk, s' = { s with disk := disk } ∧
      ((∃ f, s.disk.run steps = (.error f, disk) ∧ answer = .error (.file f)) ∨
        (s.disk.run steps = (.ok (), disk) ∧ answer = .ok ())) := by
  unfold perform at h
  split at h
  next f disk hrun =>
    obtain ⟨rfl, rfl⟩ := Prod.mk.inj h
    exact ⟨disk, rfl, .inl ⟨f, hrun, rfl⟩⟩
  next disk hrun =>
    obtain ⟨rfl, rfl⟩ := Prod.mk.inj h
    exact ⟨disk, rfl, .inr ⟨hrun, rfl⟩⟩

theorem perform_log {steps : List DiskStep} (h : s.perform steps = (answer, s')) :
    s.disk.log <+: s'.disk.log := by
  obtain ⟨disk, rfl, ⟨f, hrun, -⟩ | ⟨hrun, -⟩⟩ := perform_cases h
  · exact Disk.run_log hrun
  · exact Disk.run_log hrun

theorem update_log {c : Sidecar} (h : s.update c = (answer, s')) :
    s.disk.log <+: s'.disk.log :=
  perform_log (s := { s with state := some c }) h

/-- What the sidecar file holds. -/
def sidecarBytes? (s : DirectoryStore) : Option SparseBytes :=
  s.disk.files.bytesAt? s.sidecarPath.target

/-- Nothing has changed but the disk, and there not the sidecar. -/
structure Keeps (s s' : DirectoryStore) : Prop where
  store : ∃ disk, s' = { s with disk := disk }
  sidecar : s'.sidecarBytes? = s.sidecarBytes?

/-- The store knows its object by `c` now, and the sidecar may have followed. -/
structure Updates (s : DirectoryStore) (c : Sidecar) (s' : DirectoryStore) : Prop where
  store : ∃ disk, s' = { s with disk := disk, state := some c }
  sidecar : s'.sidecarBytes? = s.sidecarBytes? ∨ s'.sidecarBytes? = some (.ofBytes c.text.toUTF8)

theorem Keeps.refl (s : DirectoryStore) : s.Keeps s :=
  ⟨⟨s.disk, rfl⟩, rfl⟩

/-- Steps that leave the sidecar alone. -/
theorem perform_keeps {steps : List DiskStep}
    (hsteps : ∀ st ∈ steps, s.sidecarPath.target ∉ st.touched)
    (h : s.perform steps = (answer, s')) : s.Keeps s' := by
  obtain ⟨disk, rfl, hrun⟩ := perform_cases h
  refine ⟨⟨disk, rfl⟩, ?_⟩
  obtain ⟨f, hrun, -⟩ | ⟨hrun, -⟩ := hrun
  · exact Disk.run_elsewhere hrun hsteps
  · exact Disk.run_elsewhere hrun hsteps

theorem creation_elsewhere (hapart : Apart s.dataPath s.sidecarPath) (size : Nat) :
    ∀ st ∈ s.creation size, s.sidecarPath.target ∉ st.touched := by
  simp [creation, DiskStep.touched, hapart.data]

theorem transfer_elsewhere (hapart : Apart s.dataPath s.sidecarPath) (range : ByteRange)
    (data : ByteArray) : ∀ st ∈ s.transfer range data, s.sidecarPath.target ∉ st.touched := by
  simp [transfer, DiskStep.touched, hapart.data]

/-- The sidecar is replaced if all steps before succeed, none of which touches it. -/
theorem perform_persistence {steps : List DiskStep} {c : Sidecar}
    (h : s.perform (steps ++ s.persistence c) = (answer, s'))
    (hapart : Apart s.dataPath s.sidecarPath)
    (hsteps : ∀ st ∈ steps, s.sidecarPath.target ∉ st.touched) :
    ∃ disk, s' = { s with disk := disk } ∧
      ((∃ f, answer = .error (.file f)) ∧ s'.sidecarBytes? = s.sidecarBytes? ∨
        answer = .ok () ∧ s'.sidecarBytes? = some (.ofBytes c.text.toUTF8) ∧
          ∀ st ∈ steps, ∃ t t', st.apply t = (.ok (), t')) := by
  obtain ⟨disk, rfl, ⟨f, hrun, rfl⟩ | ⟨hrun, rfl⟩⟩ := perform_cases h
  · -- Only the very last step moves the new sidecar into place, so the one that failed is not
    -- behind it.
    refine ⟨disk, rfl, .inl ⟨⟨f, rfl⟩, ?_⟩⟩
    obtain ⟨f, -, hfirst⟩ | ⟨u, d₁, hfirst, hlast⟩ := Disk.run_append hrun
    · exact Disk.run_elsewhere hfirst hsteps
    · obtain ⟨-, -, hkept⟩ | ⟨hresult, -⟩ := Disk.run_replace hapart.temporary hlast
      · exact hkept.trans (Disk.run_elsewhere hfirst hsteps)
      · exact nomatch hresult
  · obtain ⟨f, hresult, -⟩ | ⟨u, d₁, hfirst, hlast⟩ := Disk.run_append hrun
    · exact nomatch hresult
    · obtain ⟨f, hresult, -⟩ | ⟨-, hreplaced⟩ := Disk.run_replace hapart.temporary hlast
      · exact nomatch hresult
      · exact ⟨disk, rfl,
          .inr ⟨rfl, hreplaced, fun st hst => Disk.run_ok_apply hfirst hst⟩⟩

/-- A creation that fails changes nothing the store goes by, however far it came. -/
theorem create_cases {size : Nat} {metadata : MetadataMap}
    (h : s.create size metadata = (answer, s'))
    (hapart : Apart s.dataPath s.sidecarPath) :
    ((∃ e, answer = .error e) ∧ s.Keeps s') ∨
      (answer = .ok () ∧ size < 2 ^ 63 ∧ s.Updates (.fresh size metadata) s' ∧
        s'.sidecarBytes? = some (.ofBytes (Sidecar.fresh size metadata).text.toUTF8)) := by
  unfold create at h
  split at h
  next =>
    obtain ⟨rfl, rfl⟩ := Prod.mk.inj h
    exact .inl ⟨⟨_, rfl⟩, .refl s⟩
  next =>
    dsimp only at h
    split at h
    next e s₁ hperform =>
      obtain ⟨rfl, rfl⟩ := Prod.mk.inj h
      obtain ⟨disk, rfl, ⟨-, hkept⟩ | ⟨hanswer, -⟩⟩ :=
        perform_persistence hperform hapart (creation_elsewhere hapart size)
      · exact .inl ⟨⟨e, rfl⟩, ⟨disk, rfl⟩, hkept⟩
      · exact nomatch hanswer
    next u s₁ hperform =>
      obtain ⟨rfl, rfl⟩ := Prod.mk.inj h
      obtain ⟨disk, rfl, ⟨⟨f, hanswer⟩, -⟩ | ⟨-, hreplaced, happly⟩⟩ :=
        perform_persistence hperform hapart (creation_elsewhere hapart size)
      · exact nomatch hanswer
      · have hmem : DiskStep.setLength s.dataPath size ∈ s.creation size :=
          List.mem_cons_of_mem _ (List.mem_cons_of_mem _ List.mem_cons_self)
        obtain ⟨t, t', hlength⟩ := happly _ hmem
        exact .inr ⟨rfl, DiskStep.lt_of_setLength_ok hlength, ⟨⟨disk, rfl⟩, .inr hreplaced⟩,
          hreplaced⟩

theorem update_cases {c : Sidecar} (h : s.update c = (answer, s'))
    (hapart : Apart s.dataPath s.sidecarPath) :
    s.Updates c s' ∧ answer ≠ .error .notFound := by
  have hperform : ({ s with state := some c } : DirectoryStore).perform ([] ++ s.persistence c) =
      (answer, s') := h
  obtain ⟨disk, rfl, ⟨⟨f, rfl⟩, hkept⟩ | ⟨rfl, hreplaced, -⟩⟩ :=
    perform_persistence hperform hapart nofun
  · exact ⟨⟨⟨disk, rfl⟩, .inl hkept⟩, nofun⟩
  · exact ⟨⟨⟨disk, rfl⟩, .inr hreplaced⟩, nofun⟩

/-- A write records its range once all of its data has been put in the data file. -/
theorem write_cases {range : ByteRange} {data : ByteArray}
    (h : s.write range data = (answer, s'))
    (hapart : Apart s.dataPath s.sidecarPath) :
    s.Keeps s' ∨ ∃ c, s.state = some c ∧ data.size = range.length ∧
      s.Updates { c with written := c.written.insert range } s' ∧
      ∃ added, s'.disk.log = s.disk.log ++ added ∧
        ⟨.writeAt s.dataPath range.first data, .ok ()⟩ ∈ added := by
  unfold write at h
  split at h
  next =>
    obtain ⟨-, rfl⟩ := Prod.mk.inj h
    exact .inl (.refl s)
  next c hstate =>
    split at h
    next =>
      obtain ⟨-, rfl⟩ := Prod.mk.inj h
      exact .inl (.refl s)
    next hfits =>
      split at h
      next e s₁ hperform =>
        obtain ⟨-, rfl⟩ := Prod.mk.inj h
        exact .inl (perform_keeps (transfer_elsewhere hapart range data) hperform)
      next u s₁ hperform =>
        have hkeeps := perform_keeps (transfer_elsewhere hapart range data) hperform
        obtain ⟨disk, rfl, ⟨f, -, hanswer⟩ | ⟨hrun, -⟩⟩ := perform_cases hperform
        · exact nomatch hanswer
        · obtain ⟨added, hadded⟩ := update_log h
          obtain ⟨⟨⟨disk', rfl⟩, hsidecar⟩, -⟩ := update_cases h hapart
          refine .inr ⟨c, hstate, (PageStore.fits_of_refusal? hfits).2, ⟨⟨disk', rfl⟩, ?_⟩,
            (s.transfer range data).map (⟨·, .ok ()⟩) ++ added, ?_, ?_⟩
          · rw [← hkeeps.sidecar]
            exact hsidecar
          · rw [← hadded, ← List.append_assoc, ← Disk.run_ok_log hrun]
          · refine List.mem_append_left _ (List.mem_map.mpr ⟨_, ?_, rfl⟩)
            unfold transfer
            simp

theorem setContentHash_cases {hash : String} (h : s.setContentHash hash = (answer, s'))
    (hapart : Apart s.dataPath s.sidecarPath) :
    s.Keeps s' ∨ ∃ c, s.state = some c ∧ answer ≠ .error .notFound ∧
      s.Updates { c with contentHash := some hash } s' := by
  unfold setContentHash at h
  split at h
  next =>
    obtain ⟨-, rfl⟩ := Prod.mk.inj h
    exact .inl (.refl s)
  next c hstate =>
    obtain ⟨hupdates, hne⟩ := update_cases h hapart
    exact .inr ⟨c, hstate, hne, hupdates⟩

theorem reopen_ok (h : s.reopen = .ok s') :
    (∃ state, s' = { s with disk := s.disk.restart, state := state }) ∧
      ∀ c, s'.state = some c → ∃ bytes, s.sidecarBytes? = some bytes ∧
        Sidecar.ofBytes? bytes.toBytes = some c := by
  unfold reopen at h
  split at h
  next => exact nomatch h
  next state hload =>
    obtain rfl := Except.ok.inj h
    refine ⟨⟨state, rfl⟩, fun c hc => load_ok (hload.trans (congrArg _ hc))⟩

end DirectoryStore
end ImageUpload
