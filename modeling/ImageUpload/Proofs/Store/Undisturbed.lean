import ImageUpload.Proofs.Bytes
import ImageUpload.Proofs.Disk.Undisturbed
import ImageUpload.Proofs.Store.Directory
import ImageUpload.Proofs.Store.Sidecar

/-
A store in a directory while nothing fails.

A call that is not refused then leaves both files of the object in their places, the data file
with all that was written and the sidecar with all that the store knows: `create_undisturbed`,
`update_undisturbed` and `write_undisturbed`.  What is in its place is found again by the next
process: `load_of_stored`.
-/

namespace ImageUpload

namespace DirectoryStore

/-- The data file, the sidecar and the file beside it are three places. -/
structure Distinct (dataPath sidecarPath : Path) : Prop extends Apart dataPath sidecarPath where
  aside : dataPath.target ≠ (sidecarPath.appendToName ".tmp").target

theorem open?_distinct {disk : Disk} {directory : Path} {name : String} {page : Nat}
    {s : DirectoryStore} (h : open? disk directory name page = .ok s) :
    Distinct s.dataPath s.sidecarPath := by
  obtain ⟨base, last, hdata, hsidecar⟩ := open?_names h
  refine ⟨open?_apart h, ?_⟩
  rw [hsidecar, target_temporary, hdata, Path.target_concat, String.append_assoc]
  exact (Location.enter_ne_append _ last (by decide)).symm

/-! ## Both files in place -/

/-- The files of an object with these bytes. -/
structure Stored (files : FileTree) (dataPath sidecarPath : Path) (c : Sidecar)
    (b : SparseBytes) : Prop where
  dataLeads : files.Leads dataPath
  sidecarLeads : files.Leads sidecarPath
  data : files.bytesAt? dataPath.target = some b
  sidecar : files.bytesAt? sidecarPath.target = some (.ofBytes c.text.toUTF8)

variable {files : FileTree} {dataPath sidecarPath : Path} {c : Sidecar} {b : SparseBytes}

/-- A process that is started anew learns all that was known before. -/
theorem load_of_stored (h : Stored files dataPath sidecarPath c b) (hsize : c.size < 2 ^ 64)
    (hwritten : c.written.Canonical) : load files dataPath sidecarPath = .ok (some c) := by
  unfold load
  rw [FileTree.read_of_leads h.sidecarLeads h.sidecar]
  simp only [SparseBytes.toBytes_ofBytes, Sidecar.ofBytes?_text hsize hwritten,
    FileTree.present_of_leads h.dataLeads h.data]

variable {s s' : DirectoryStore} {answer : Except StorageError Unit}

theorem contents_of_stored (h : Stored s.disk.files s.dataPath s.sidecarPath c b) :
    s.contents = some b.toBytes := by
  unfold contents
  rw [FileTree.read_of_leads h.dataLeads h.data]
  rfl

/-! ## Runs that succeed -/

variable {d d' : Disk} {u : Unit}

theorem creation_ok {size : Nat} (h : d.run (s.creation size) = (.ok u, d')) :
    size < FileTree.largest ∧ d'.files.Leads s.dataPath ∧
      d'.files.bytesAt? s.dataPath.target = some (.zeros size) := by
  obtain ⟨d₁, -, h⟩ := Disk.run_ok_cons h
  obtain ⟨d₂, htruncate, h⟩ := Disk.run_ok_cons h
  have hput := DiskStep.whole_ok htruncate
  have hleads := (FileTree.put_leads hput).keeps (Disk.run_keeps h)
  -- the file is there and empty, and the new length fills it with zeros
  obtain ⟨d₃, hlength, h⟩ := Disk.run_ok_cons h
  obtain ⟨d₄, hsync, h⟩ := Disk.run_ok_cons h
  obtain ⟨bytes, hbytes, hset⟩ := FileTree.alter_ok (DiskStep.alter_of_setLength_ok hlength)
  rw [FileTree.put_ok hput, if_pos rfl] at hbytes
  obtain rfl := Option.some.inj hbytes
  have hsame : d₄.files = d₃.files := (Prod.mk.inj hsync).2.symm
  refine ⟨DiskStep.lt_of_setLength_ok hlength, hleads, ?_⟩
  rw [Disk.run_ok_nil h, hsame, hset, if_pos rfl]
  rfl

theorem transfer_ok {range : ByteRange} {data : ByteArray}
    (h : d.run (s.transfer range data) = (.ok u, d'))
    (hb : d.files.bytesAt? s.dataPath.target = some b) :
    d'.files.bytesAt? s.dataPath.target = some (b.write range.first data) := by
  obtain ⟨d₁, hopen, h⟩ := Disk.run_ok_cons h
  obtain ⟨d₂, hseek, h⟩ := Disk.run_ok_cons h
  obtain ⟨d₃, hwrite, h⟩ := Disk.run_ok_cons h
  obtain ⟨d₄, hsync, h⟩ := Disk.run_ok_cons h
  have hopened : d₁.files = d.files := (Prod.mk.inj hopen).2.symm
  obtain ⟨bytes, hbytes, hset⟩ := FileTree.alter_ok (DiskStep.whole_ok hwrite)
  rw [DiskStep.files_of_seek_ok hseek, hopened, hb] at hbytes
  obtain rfl := Option.some.inj hbytes
  have hsame : d₄.files = d₃.files := (Prod.mk.inj hsync).2.symm
  rw [Disk.run_ok_nil h, hsame, hset, if_pos rfl]

theorem persistence_leads (h : d.run (s.persistence c) = (.ok u, d')) :
    d'.files.Leads s.sidecarPath := by
  obtain ⟨d₁, -, h⟩ := Disk.run_ok_cons h
  obtain ⟨d₂, hrename, h⟩ := Disk.run_ok_cons h
  rw [Disk.run_ok_nil h]
  exact FileTree.rename_leads (DiskStep.whole_ok hrename)

/-- Once the sidecar is replaced, both files are in their places. -/
theorem persistence_ok (hdistinct : Distinct s.dataPath s.sidecarPath)
    (h : d.run (s.persistence c) = (.ok u, d')) (hleads : d.files.Leads s.dataPath)
    (hb : d.files.bytesAt? s.dataPath.target = some b) :
    Stored d'.files s.dataPath s.sidecarPath c b := by
  have hdata : ∀ st ∈ s.persistence c, s.dataPath.target ∉ st.touched := by
    have hsidecar := hdistinct.data.symm
    have haside : s.dataPath.target ≠ s.temporaryPath.target := hdistinct.aside
    simp [persistence, DiskStep.touched, haside, hsidecar]
  obtain ⟨f, hresult, -⟩ | ⟨-, hreplaced⟩ := Disk.run_replace hdistinct.temporary h
  · cases hresult
  · exact ⟨hleads.keeps (Disk.run_keeps h), persistence_leads h,
      (Disk.run_elsewhere h hdata).trans hb, hreplaced⟩

/-! ## Calls -/

theorem create_log {size : Nat} {metadata : MetadataMap}
    (h : s.create size metadata = (answer, s')) : s.disk.log <+: s'.disk.log := by
  unfold create at h
  split at h
  next =>
    obtain ⟨-, rfl⟩ := Prod.mk.inj h
    exact List.prefix_rfl
  next =>
    dsimp only at h
    split at h
    next e s₁ hperform =>
      obtain ⟨-, rfl⟩ := Prod.mk.inj h
      exact perform_log hperform
    next u s₁ hperform =>
      have hlog := perform_log hperform
      obtain ⟨-, rfl⟩ := Prod.mk.inj h
      exact hlog

theorem write_log {range : ByteRange} {data : ByteArray} (h : s.write range data = (answer, s')) :
    s.disk.log <+: s'.disk.log := by
  unfold write at h
  split at h
  next =>
    obtain ⟨-, rfl⟩ := Prod.mk.inj h
    exact List.prefix_rfl
  next =>
    split at h
    next =>
      obtain ⟨-, rfl⟩ := Prod.mk.inj h
      exact List.prefix_rfl
    next =>
      split at h
      next e s₁ hperform =>
        obtain ⟨-, rfl⟩ := Prod.mk.inj h
        exact perform_log hperform
      next u s₁ hperform => exact (perform_log hperform).trans (update_log h)

theorem setContentHash_log {hash : String} (h : s.setContentHash hash = (answer, s')) :
    s.disk.log <+: s'.disk.log := by
  unfold setContentHash at h
  split at h
  next =>
    obtain ⟨-, rfl⟩ := Prod.mk.inj h
    exact List.prefix_rfl
  next => exact update_log h

theorem perform_undisturbed {steps : List DiskStep} (hrunning : s.disk.stopped = false)
    (h : s.perform steps = (answer, s')) (hu : s.disk.Undisturbed s'.disk) :
    answer = .ok () ∧ ∃ disk, s' = { s with disk := disk } ∧ disk.stopped = false ∧
      s.disk.run steps = (.ok (), disk) := by
  obtain ⟨disk, rfl, ⟨f, hrun, -⟩ | ⟨hrun, hanswer⟩⟩ := perform_cases h
  · exact nomatch (Disk.run_undisturbed hrunning hrun hu).1
  · exact ⟨hanswer, disk, rfl, (Disk.run_undisturbed hrunning hrun hu).2, hrun⟩

/-- The store goes on with this sidecar, and both files are in their places. -/
structure Turns (s s' : DirectoryStore) (c : Sidecar) (b : SparseBytes) : Prop where
  store : ∃ disk, s' = { s with disk := disk, state := some c }
  running : s'.disk.stopped = false
  stored : Stored s'.disk.files s.dataPath s.sidecarPath c b

theorem create_undisturbed {size : Nat} {metadata : MetadataMap}
    (hdistinct : Distinct s.dataPath s.sidecarPath) (hrunning : s.disk.stopped = false)
    (h : s.create size metadata = (answer, s')) (hu : s.disk.Undisturbed s'.disk)
    (hsize : size % s.page = 0) :
    answer = .ok () ∧ size < 2 ^ 63 ∧ s.Turns s' (.fresh size metadata) (.zeros size) := by
  unfold create at h
  rw [if_neg (not_not.mpr hsize)] at h
  dsimp only at h
  split at h
  next e s₁ hperform =>
    obtain ⟨rfl, rfl⟩ := Prod.mk.inj h
    exact nomatch (perform_undisturbed hrunning hperform hu).1
  next v s₁ hperform =>
    obtain ⟨rfl, rfl⟩ := Prod.mk.inj h
    obtain ⟨-, disk, rfl, hstopped, hrun⟩ := perform_undisturbed hrunning hperform hu
    obtain ⟨f, hresult, -⟩ | ⟨v, d₁, hcreation, hpersistence⟩ := Disk.run_append hrun
    · exact nomatch hresult
    · obtain ⟨hlt, hleads, hdata⟩ := creation_ok hcreation
      exact ⟨rfl, hlt, ⟨disk, rfl⟩, hstopped,
        persistence_ok hdistinct hpersistence hleads hdata⟩

theorem update_undisturbed (hdistinct : Distinct s.dataPath s.sidecarPath)
    (hrunning : s.disk.stopped = false) (h : s.update c = (answer, s'))
    (hu : s.disk.Undisturbed s'.disk) (hleads : s.disk.files.Leads s.dataPath)
    (hb : s.disk.files.bytesAt? s.dataPath.target = some b) :
    answer = .ok () ∧ s.Turns s' c b := by
  obtain ⟨hanswer, disk, rfl, hstopped, hrun⟩ :=
    perform_undisturbed (s := { s with state := some c }) hrunning h hu
  exact ⟨hanswer, ⟨disk, rfl⟩, hstopped, persistence_ok hdistinct hrun hleads hb⟩

theorem write_undisturbed {range : ByteRange} {data : ByteArray}
    (hdistinct : Distinct s.dataPath s.sidecarPath) (hrunning : s.disk.stopped = false)
    (h : s.write range data = (answer, s')) (hu : s.disk.Undisturbed s'.disk)
    (hstate : s.state = some c) (hstored : Stored s.disk.files s.dataPath s.sidecarPath c b)
    (hfits : PageStore.refusal? s.page c.size range data = none) :
    answer = .ok () ∧
      s.Turns s' { c with written := c.written.insert range } (b.write range.first data) := by
  unfold write at h
  rw [hstate] at h
  simp only [hfits] at h
  split at h
  next e s₁ hperform =>
    obtain ⟨rfl, rfl⟩ := Prod.mk.inj h
    exact nomatch (perform_undisturbed hrunning hperform hu).1
  next v s₁ hperform =>
    obtain ⟨hfirst, hrest⟩ := hu.split (perform_log hperform) (update_log h)
    obtain ⟨-, disk, rfl, hstopped, hrun⟩ := perform_undisturbed hrunning hperform hfirst
    obtain ⟨hanswer, ⟨disk', rfl⟩, hstopped', hstored'⟩ :=
      update_undisturbed (s := { s with disk := disk }) hdistinct hstopped h hrest
        (hstored.dataLeads.keeps (Disk.run_keeps hrun)) (transfer_ok hrun hstored.data)
    exact ⟨hanswer, ⟨disk', rfl⟩, hstopped', hstored'⟩

end DirectoryStore
end ImageUpload
