import ImageUpload.Proofs.Disk.Standing
import ImageUpload.Proofs.RangeSet.History
import ImageUpload.Proofs.Store.Claims
import ImageUpload.Proofs.Store.Undisturbed

/-
What a call leaves behind that fails.

A call changes what the store knows of its object, or it replaces the sidecar, or it does both, or
neither: `answer_cases`.  A creation comes to know of its object when the sidecar is in place.  A
write and a digest are known before, so a failure while the sidecar is replaced leaves the store
ahead of it, `CallRecord.outruns`, until a call succeeds.  While it is not ahead, opening the object
again tells what the store tells: `failures_leave_the_object`.
-/

namespace ImageUpload

/-! ## What a sidecar can tell -/

namespace Sidecar

/-- What can be put in a sidecar and read from it again. -/
structure Sound (c : Sidecar) : Prop where
  size_lt : c.size < 2 ^ 64
  canonical : c.written.Canonical

theorem sound_of_ofValue? {v : Json.Value} {c : Sidecar} (h : ofValue? v = some c) : c.Sound := by
  unfold ofValue? at h
  split at h
  next size metadata contentHash written _ =>
    simp only [Option.bind_eq_bind, Option.bind_eq_some_iff, Option.pure_def,
      Option.some.injEq] at h
    obtain ⟨n, hsize, _, -, _, -, set, hset, rfl⟩ := h
    constructor
    · unfold Json.Value.asWord? at hsize
      split at hsize
      next =>
        split at hsize
        next hlt => exact Option.some.inj hsize ▸ hlt
        next => exact nomatch hsize
      next => exact nomatch hsize
    · cases written with
      | none => exact Option.some.inj hset ▸ RangeSet.canonical_empty
      | some v => exact RangeSet.canonical_of_ofValue? hset
  next => exact nomatch h

theorem sound_of_ofBytes? {bytes : ByteArray} {c : Sidecar} (h : ofBytes? bytes = some c) :
    c.Sound := by
  obtain ⟨v, -, hv⟩ := Option.bind_eq_some_iff.mp h
  exact sound_of_ofValue? hv

end Sidecar

/-! ## Calls that outrun the sidecar -/

/-- What a call makes of an object that stays. -/
def DirectoryCall.change : DirectoryCall → Sidecar → Sidecar
  | .write range _, c => { c with written := c.written.insert range }
  | .setContentHash hash, c => { c with contentHash := some hash }
  | _, c => c

theorem DirectoryCall.sound_change {c : Sidecar} (h : c.Sound) (call : DirectoryCall) :
    (call.change c).Sound := by
  cases call with
  | write range data => exact ⟨h.size_lt, RangeSet.canonical_insert h.canonical range⟩
  | _ => exact ⟨h.size_lt, h.canonical⟩

def DiskStep.writesFile : DiskStep → Bool
  | writeFile _ _ => true
  | _ => false

namespace CallRecord

/-- The call failed by a step on the disk when the store knew of its change already.  A write is
known of when all steps on the data file are done, and a digest at once. -/
def outruns (w : CallRecord) : Bool :=
  match w.call, w.answer with
  | .write _ _, .error (.file _) => w.steps.any fun r => r.step.writesFile
  | .setContentHash _, .error (.file _) => true
  | _, _ => false

theorem outruns_write_of_steps {range : ByteRange} {data : ByteArray}
    {answer : Except StorageError Unit} {steps : List StepRecord}
    (h : ∀ r ∈ steps, r.step.writesFile = false) :
    outruns ⟨.write range data, answer, steps⟩ = false := by
  have hany : (steps.any fun r => r.step.writesFile) = false :=
    List.any_eq_false.mpr fun r hr => by rw [h r hr]; exact nofun
  cases answer with
  | ok _ => rfl
  | error e =>
    cases e with
    | file f => exact hany
    | _ => rfl

end CallRecord

/-- A call since the last one that succeeded has outrun the sidecar. -/
def CallHistory.Ahead (history : CallHistory) : Prop :=
  ∃ w ∈ history.takeWhile (fun w => !w.answer.isOk), w.outruns = true

namespace CallHistory

instance (history : CallHistory) : Decidable history.Ahead :=
  inferInstanceAs (Decidable (∃ w ∈ _, _))

theorem not_ahead_of_cons {history : CallHistory} {w : CallRecord} {e : StorageError}
    (h : ¬Ahead (w :: history)) (hanswer : w.answer = .error e) :
    w.outruns = false ∧ ¬history.Ahead := by
  have hcons : (w :: history).takeWhile (fun w => !w.answer.isOk) =
      w :: history.takeWhile fun w => !w.answer.isOk :=
    List.takeWhile_cons_of_pos (by rw [hanswer]; rfl)
  unfold Ahead at h
  rw [hcons] at h
  constructor
  · exact eq_false_of_ne_true fun hout => h ⟨w, List.mem_cons_self, hout⟩
  · exact fun ⟨v, hv, hout⟩ => h ⟨v, List.mem_cons_of_mem w hv, hout⟩

end CallHistory

namespace DirectoryStore

variable {s s' : DirectoryStore} {c : Sidecar} {answer : Except StorageError Unit}

/-! ## What stands -/

/-- The paths are the same, and the directories and what is at the path of the data stand. -/
structure Stands (s s' : DirectoryStore) : Prop where
  dataPath : s'.dataPath = s.dataPath
  sidecarPath : s'.sidecarPath = s.sidecarPath
  directories : s.disk.files.Keeps s'.disk.files
  data : FileTree.Retains s.dataPath.target s.disk.files s'.disk.files

theorem Stands.refl (s : DirectoryStore) : s.Stands s :=
  ⟨rfl, rfl, .refl _, .refl _ _⟩

theorem Stands.trans {s'' : DirectoryStore} (h : s.Stands s') (h' : s'.Stands s'') :
    s.Stands s'' :=
  ⟨h'.dataPath.trans h.dataPath, h'.sidecarPath.trans h.sidecarPath,
    h.directories.trans h'.directories, h.data.trans (h.dataPath ▸ h'.data)⟩

theorem perform_stands {steps : List DiskStep} (h : s.perform steps = (answer, s'))
    (hsteps : ∀ st ∈ steps, st.vacated ≠ some s.dataPath.target) : s.Stands s' := by
  obtain ⟨disk, rfl, ⟨f, hrun, -⟩ | ⟨hrun, -⟩⟩ := perform_cases h
  · exact ⟨rfl, rfl, Disk.run_keeps hrun, Disk.run_retains hsteps hrun⟩
  · exact ⟨rfl, rfl, Disk.run_keeps hrun, Disk.run_retains hsteps hrun⟩

theorem vacated_creation (size : Nat) : ∀ st ∈ s.creation size, st.vacated = none := by
  simp [creation, DiskStep.vacated]

theorem vacated_transfer (range : ByteRange) (data : ByteArray) :
    ∀ st ∈ s.transfer range data, st.vacated = none := by
  simp [transfer, DiskStep.vacated]

theorem vacated_persistence (hdistinct : Distinct s.dataPath s.sidecarPath) (c : Sidecar) :
    ∀ st ∈ s.persistence c, st.vacated ≠ some s.dataPath.target := by
  have haside : s.temporaryPath.target ≠ s.dataPath.target := hdistinct.aside.symm
  simp [persistence, DiskStep.vacated, haside]

/-! ## Calls -/

theorem load_eq_some_iff {files : FileTree} {dataPath sidecarPath : Path} :
    load files dataPath sidecarPath = .ok (some c) ↔
      files.Leads sidecarPath ∧ (∃ bytes, files.bytesAt? sidecarPath.target = some bytes ∧
        Sidecar.ofBytes? bytes.toBytes = some c) ∧
      files.Leads dataPath ∧ (files.node? dataPath.target).isSome := by
  constructor
  · intro h
    unfold load at h
    split at h
    next => exact nomatch h
    next => exact nomatch h
    next bytes hread =>
      obtain ⟨hleads, hbytes⟩ := FileTree.read_ok_iff.mp hread
      split at h
      next => exact nomatch h
      next c' hc =>
        split at h
        next => exact nomatch h
        next hpresent =>
          obtain rfl := Option.some.inj (Except.ok.inj h)
          exact ⟨hleads, ⟨bytes, hbytes, hc⟩, FileTree.present_iff.mp hpresent⟩
        next => exact nomatch h
  · rintro ⟨hleads, ⟨bytes, hbytes, hc⟩, hdata⟩
    unfold load
    rw [FileTree.read_of_leads hleads hbytes]
    simp only [hc, FileTree.present_iff.mpr hdata]

/-- What the store knows can be told, and its data file stands. -/
structure Grounded (s : DirectoryStore) : Prop where
  distinct : Distinct s.dataPath s.sidecarPath
  sound : ∀ c, s.state = some c → c.Sound
  data : ∀ c, s.state = some c → s.disk.files.Leads s.dataPath ∧
    (s.disk.files.node? s.dataPath.target).isSome

/-- Another process that opens the object knows of it what this one does. -/
def Agrees (s : DirectoryStore) : Prop :=
  ∀ c, s.state = some c → load s.disk.files s.dataPath s.sidecarPath = .ok (some c)

/-- How a call ends. -/
inductive Ends (s : DirectoryStore) (call : DirectoryCall) :
    Except StorageError Unit → DirectoryStore → Prop where
  /-- It has failed and changed nothing that is told of the object. -/
  | unchanged {e : StorageError} {s' : DirectoryStore} (hstands : s.Stands s')
    (hstate : s'.state = s.state) (hsidecar : s'.sidecarBytes? = s.sidecarBytes?)
    (hwithin : CallRecord.outruns ⟨call, .error e, s'.disk.log.drop s.disk.log.length⟩ = false) :
    Ends s call (.error e) s'
  /-- It has failed with its change known to the store and not to the sidecar. -/
  | ahead {e : StorageError} {s' : DirectoryStore} {c : Sidecar} (hstands : s.Stands s')
    (hknown : s.state = some c) (hstate : s'.state = some (call.change c))
    (hsidecar : s'.sidecarBytes? = s.sidecarBytes?)
    (houtruns : CallRecord.outruns ⟨call, .error e, s'.disk.log.drop s.disk.log.length⟩ = true) :
    Ends s call (.error e) s'
  /-- It has succeeded. -/
  | done {s' : DirectoryStore} (hgrounded : s'.Grounded) (hagrees : s'.Agrees) :
    Ends s call (.ok ()) s'

/-- The sidecar follows what the store knows, unless a step fails. -/
theorem update_outcome (hdistinct : Distinct s.dataPath s.sidecarPath)
    (h : s.update c = (answer, s')) :
    s'.state = some c ∧ s.Stands s' ∧
      (((∃ f, answer = .error (.file f)) ∧ s'.sidecarBytes? = s.sidecarBytes?) ∨
        (answer = .ok () ∧ s'.disk.files.Leads s'.sidecarPath ∧
          s'.sidecarBytes? = some (.ofBytes c.text.toUTF8))) := by
  have hstands := perform_stands (s := { s with state := some c }) h
    (vacated_persistence (s := { s with state := some c }) hdistinct c)
  have hperform : ({ s with state := some c } : DirectoryStore).perform ([] ++ s.persistence c) =
      (answer, s') := h
  obtain ⟨disk, rfl, hsidecar⟩ := perform_persistence hperform hdistinct.toApart nofun
  refine ⟨rfl, ⟨rfl, rfl, hstands.directories, hstands.data⟩, ?_⟩
  rcases hsidecar with ⟨⟨f, rfl⟩, hkept⟩ | ⟨rfl, hreplaced, -⟩
  · exact .inl ⟨⟨f, rfl⟩, hkept⟩
  · refine .inr ⟨rfl, ?_, hreplaced⟩
    obtain ⟨disk', hdisk, ⟨f, -, herror⟩ | ⟨hrun, -⟩⟩ := perform_cases hperform
    · exact nomatch herror
    · obtain rfl : disk = disk' := congrArg DirectoryStore.disk hdisk
      exact persistence_leads hrun

/-- The store and both files tell of the same object. -/
theorem done_of_followed {call : DirectoryCall} (hdistinct : Distinct s'.dataPath s'.sidecarPath)
    (hstate : s'.state = some c) (hsound : c.Sound) (hdata : s'.disk.files.Leads s'.dataPath ∧
      (s'.disk.files.node? s'.dataPath.target).isSome)
    (hleads : s'.disk.files.Leads s'.sidecarPath)
    (hbytes : s'.sidecarBytes? = some (.ofBytes c.text.toUTF8)) : s.Ends call (.ok ()) s' := by
  have hknown : ∀ {c'}, s'.state = some c' → c' = c := fun hc' =>
    Option.some.inj (hc'.symm.trans hstate)
  refine .done ⟨hdistinct, fun c' hc' => hknown hc' ▸ hsound, fun c' _ => hdata⟩ fun c' hc' => ?_
  obtain rfl := hknown hc'
  refine load_eq_some_iff.mpr ⟨hleads, ⟨_, hbytes, ?_⟩, hdata⟩
  rw [SparseBytes.toBytes_ofBytes, Sidecar.ofBytes?_text hsound.size_lt hsound.canonical]

theorem Grounded.data_of_stands (h : s.Grounded) (hstands : s.Stands s') (hstate : s.state = some c) :
    s'.disk.files.Leads s'.dataPath ∧ (s'.disk.files.node? s'.dataPath.target).isSome := by
  obtain ⟨hleads, hnode⟩ := h.data c hstate
  rw [hstands.dataPath]
  exact ⟨hleads.keeps hstands.directories, hstands.data hnode⟩

theorem Grounded.distinct_of_stands (h : s.Grounded) (hstands : s.Stands s') :
    Distinct s'.dataPath s'.sidecarPath := by
  rw [hstands.dataPath, hstands.sidecarPath]
  exact h.distinct

/-- A creation that fails leaves what the store knows and the sidecar as they were. -/
theorem create_ends (hgrounded : s.Grounded) {size : Nat} {metadata : MetadataMap}
    (h : s.create size metadata = (answer, s')) : s.Ends (.create size metadata) answer s' := by
  have hdistinct := hgrounded.distinct
  have hsteps : ∀ st ∈ s.creation size ++ s.persistence (.fresh size metadata),
      st.vacated ≠ some s.dataPath.target := by
    intro st hst
    rcases List.mem_append.mp hst with hst | hst
    · rw [vacated_creation size st hst]
      exact nofun
    · exact vacated_persistence hdistinct _ st hst
  have hcases := create_cases h hdistinct.toApart
  unfold create at h
  split at h
  next =>
    obtain ⟨rfl, rfl⟩ := Prod.mk.inj h
    exact .unchanged (.refl s) rfl rfl rfl
  next =>
    dsimp only at h
    split at h
    next e s₁ hperform =>
      obtain ⟨rfl, rfl⟩ := Prod.mk.inj h
      rcases hcases with ⟨-, ⟨disk, rfl⟩, hsidecar⟩ | ⟨hanswer, -⟩
      · exact .unchanged (perform_stands hperform hsteps) rfl hsidecar rfl
      · cases hanswer
    next u s₁ hperform =>
      obtain ⟨disk, rfl, ⟨f, -, herror⟩ | ⟨hrun, -⟩⟩ := perform_cases hperform
      · cases herror
      · obtain ⟨rfl, rfl⟩ := Prod.mk.inj h
        rcases hcases with ⟨⟨e, herror⟩, -⟩ | ⟨-, hsize, -, hbytes⟩
        · cases herror
        · obtain ⟨f, hresult, -⟩ | ⟨v, d₁, hcreation, hpersistence⟩ := Disk.run_append hrun
          · cases hresult
          · obtain ⟨-, hleads, hdata⟩ := creation_ok hcreation
            have hstored := persistence_ok hdistinct hpersistence hleads hdata
            have hsound : (Sidecar.fresh size metadata).Sound :=
              ⟨show size < 2 ^ 64 by omega, RangeSet.canonical_empty⟩
            refine done_of_followed hdistinct rfl hsound ⟨hstored.dataLeads, ?_⟩
              hstored.sidecarLeads hbytes
            rw [FileTree.bytesAt?_eq_some.mp hstored.data]
            rfl

theorem setContentHash_ends (hgrounded : s.Grounded) {hash : String}
    (h : s.setContentHash hash = (answer, s')) : s.Ends (.setContentHash hash) answer s' := by
  unfold setContentHash at h
  split at h
  next hnone =>
    obtain ⟨rfl, rfl⟩ := Prod.mk.inj h
    exact .unchanged (.refl s) rfl rfl rfl
  next c hstate =>
    obtain ⟨hstate', hstands, ⟨⟨f, rfl⟩, hsidecar⟩ | ⟨rfl, hleads, hbytes⟩⟩ :=
      update_outcome hgrounded.distinct h
    · exact .ahead hstands hstate hstate' hsidecar rfl
    · have hsound := DirectoryCall.sound_change (hgrounded.sound c hstate) (.setContentHash hash)
      exact done_of_followed (hgrounded.distinct_of_stands hstands) hstate' hsound
        (hgrounded.data_of_stands hstands hstate) hleads hbytes

/-- While the process runs, an update begins to replace the sidecar. -/
theorem update_begins (hrunning : s.disk.stopped = false) (h : s.update c = (answer, s')) :
    ∃ (r : StepRecord) (rest : List StepRecord), s'.disk.log = s.disk.log ++ r :: rest ∧
      r.step.writesFile = true := by
  have hfirst : ∀ {result disk}, s.disk.run (s.persistence c) = (result, disk) →
      ∃ (r : StepRecord) (rest : List StepRecord), disk.log = s.disk.log ++ r :: rest ∧
        r.step.writesFile = true := by
    intro result disk hrun
    obtain ⟨result, rest, hlog⟩ := Disk.run_first hrunning hrun
    exact ⟨_, rest, hlog, rfl⟩
  obtain ⟨disk, rfl, ⟨f, hrun, -⟩ | ⟨hrun, -⟩⟩ := perform_cases (s := { s with state := some c }) h
  · exact hfirst hrun
  · exact hfirst hrun

theorem transfer_added {range : ByteRange} {data : ByteArray} {result : Except FileFault Unit}
    {disk : Disk} (h : s.disk.run (s.transfer range data) = (result, disk)) :
    ∃ added, disk.log = s.disk.log ++ added ∧
      ∀ r ∈ added, r.step.writesFile = false := by
  obtain ⟨added, hlog, hown⟩ := Disk.run_added h
  refine ⟨added, hlog, fun r hr => ?_⟩
  have hsteps : ∀ st ∈ s.transfer range data, st.writesFile = false := by
    simp [transfer, DiskStep.writesFile]
  exact hsteps r.step (hown r hr)

theorem write_ends (hgrounded : s.Grounded) {range : ByteRange} {data : ByteArray}
    (h : s.write range data = (answer, s')) : s.Ends (.write range data) answer s' := by
  have hdistinct := hgrounded.distinct
  unfold write at h
  split at h
  next hnone =>
    obtain ⟨rfl, rfl⟩ := Prod.mk.inj h
    exact .unchanged (.refl s) rfl rfl rfl
  next c hstate =>
    split at h
    next e _ =>
      obtain ⟨rfl, rfl⟩ := Prod.mk.inj h
      refine .unchanged (.refl s) rfl rfl (CallRecord.outruns_write_of_steps ?_)
      rw [List.drop_length]
      exact nofun
    next =>
      have hvacated : ∀ st ∈ s.transfer range data, st.vacated ≠ some s.dataPath.target := by
        intro st hst
        rw [vacated_transfer range data st hst]
        exact nofun
      have hkeeps : ∀ {result s₁}, s.perform (s.transfer range data) = (result, s₁) →
          s.Keeps s₁ ∧ s.Stands s₁ := fun hperform =>
        ⟨perform_keeps (transfer_elsewhere hdistinct.toApart range data) hperform,
          perform_stands hperform hvacated⟩
      split at h
      next e s₁ hperform =>
        obtain ⟨rfl, rfl⟩ := Prod.mk.inj h
        obtain ⟨⟨-, hsidecar⟩, hstands⟩ := hkeeps hperform
        obtain ⟨disk, rfl, ⟨f, hrun, -⟩ | ⟨-, herror⟩⟩ := perform_cases hperform
        · obtain ⟨added, hlog, hadded⟩ := transfer_added hrun
          refine .unchanged hstands rfl hsidecar (CallRecord.outruns_write_of_steps ?_)
          show ∀ r ∈ disk.log.drop s.disk.log.length, _
          rw [hlog, List.drop_left]
          exact hadded
        · exact nomatch herror
      next u s₁ hperform =>
        obtain ⟨⟨-, hsidecar⟩, hstands⟩ := hkeeps hperform
        obtain ⟨disk, rfl, ⟨f, -, herror⟩ | ⟨hrun, -⟩⟩ := perform_cases hperform
        · exact nomatch herror
        · obtain ⟨added, hadded, -⟩ := Disk.run_added hrun
          obtain ⟨r, rest, hbegins, hwrites⟩ := update_begins (Disk.running_of_run_ok hrun) h
          obtain ⟨hstate', hstands', ⟨⟨f, rfl⟩, hsidecar'⟩ | ⟨rfl, hleads, hbytes⟩⟩ :=
            update_outcome (s := { s with disk := disk }) hdistinct h
          · refine .ahead (hstands.trans hstands') hstate hstate' (hsidecar'.trans hsidecar) ?_
            -- the steps on the data file come first, and then the sidecar is begun
            have hlog : s'.disk.log = s.disk.log ++ (added ++ r :: rest) := by
              rw [hbegins, ← List.append_assoc, ← hadded]
            rw [hlog, List.drop_left]
            exact List.any_eq_true.mpr ⟨r, List.mem_append_right _ List.mem_cons_self, hwrites⟩
          · have hsound := DirectoryCall.sound_change (hgrounded.sound c hstate)
              (.write range data)
            exact done_of_followed (hgrounded.distinct_of_stands (hstands.trans hstands')) hstate'
              hsound (hgrounded.data_of_stands (hstands.trans hstands') hstate) hleads hbytes

/-- What has been loaded can be loaded again. -/
theorem grounded_of_load (hdistinct : Distinct s.dataPath s.sidecarPath)
    (h : load s.disk.files s.dataPath s.sidecarPath = .ok s.state) : s.Grounded ∧ s.Agrees := by
  have hagrees : s.Agrees := fun c hc => hc ▸ h
  refine ⟨⟨hdistinct, fun c hc => ?_, fun c hc => ?_⟩, hagrees⟩
  · obtain ⟨-, ⟨bytes, -, hread⟩, -⟩ := load_eq_some_iff.mp (hagrees c hc)
    exact Sidecar.sound_of_ofBytes? hread
  · exact (load_eq_some_iff.mp (hagrees c hc)).2.2

theorem answer_ends (hgrounded : s.Grounded) {call : DirectoryCall}
    (h : s.answer call = some (answer, s')) : s.Ends call answer s' := by
  cases call with
  | create size metadata => exact create_ends hgrounded (Option.some.inj h)
  | write range data => exact write_ends hgrounded (Option.some.inj h)
  | setContentHash hash => exact setContentHash_ends hgrounded (Option.some.inj h)
  | reopen =>
    rw [DirectoryStore.answer] at h
    split at h
    next => cases h
    next s₁ hreopen =>
      obtain ⟨rfl, rfl⟩ := Prod.mk.inj (Option.some.inj h)
      unfold reopen at hreopen
      split at hreopen
      next => cases hreopen
      next state hload =>
        obtain rfl := Except.ok.inj hreopen
        obtain ⟨hgrounded', hagrees'⟩ := grounded_of_load
          (s := { s with disk := s.disk.restart, state := state }) hgrounded.distinct hload
        exact .done hgrounded' hagrees'

/-! ## Histories -/

variable {history : CallHistory}

/-- The store is grounded, and another process agrees with it while no call has outrun the
sidecar. -/
structure Steady (history : CallHistory) (s : DirectoryStore) : Prop where
  grounded : s.Grounded
  agrees : ¬history.Ahead → s.Agrees

theorem Grounded.of_stands (h : s.Grounded) (hstands : s.Stands s')
    (hstate : ∀ c', s'.state = some c' → c'.Sound ∧ s.state ≠ none) : s'.Grounded := by
  refine ⟨h.distinct_of_stands hstands, fun c' hc' => (hstate c' hc').1, fun c' hc' => ?_⟩
  obtain ⟨c, hc⟩ := Option.ne_none_iff_exists'.mp (hstate c' hc').2
  exact h.data_of_stands hstands hc

theorem Agrees.of_stands (h : s.Agrees) (hstands : s.Stands s') (hstate : s'.state = s.state)
    (hsidecar : s'.sidecarBytes? = s.sidecarBytes?) : s'.Agrees := by
  intro c hc
  obtain ⟨hleads, ⟨bytes, hbytes, hread⟩, hdata, hnode⟩ :=
    load_eq_some_iff.mp (h c (hstate.symm.trans hc))
  refine load_eq_some_iff.mpr ⟨?_, ⟨bytes, hsidecar.trans hbytes, hread⟩, ?_, ?_⟩
  · rw [hstands.sidecarPath]
    exact hleads.keeps hstands.directories
  · rw [hstands.dataPath]
    exact hdata.keeps hstands.directories
  · rw [hstands.dataPath]
    exact hstands.data hnode

/-- One call: what has succeeded is told by the sidecar, and what has failed is not, unless it has
outrun it. -/
theorem Steady.step (h : Steady history s) {call : DirectoryCall}
    (hanswer : s.answer call = some (answer, s')) :
    Steady (⟨call, answer, s'.disk.log.drop s.disk.log.length⟩ :: history) s' := by
  cases answer_ends h.grounded hanswer with
  | unchanged hstands hstate hsidecar hwithin =>
    refine ⟨h.grounded.of_stands hstands fun c hc => ?_, fun hahead => ?_⟩
    · rw [hstate] at hc
      exact ⟨h.grounded.sound c hc, hc ▸ Option.some_ne_none c⟩
    · exact (h.agrees (CallHistory.not_ahead_of_cons hahead rfl).2).of_stands hstands hstate hsidecar
  | ahead hstands hknown hstate hsidecar houtruns =>
    refine ⟨h.grounded.of_stands hstands fun c' hc' => ?_, fun hahead => ?_⟩
    · obtain rfl := Option.some.inj (hstate.symm.trans hc')
      exact ⟨call.sound_change (h.grounded.sound _ hknown), hknown ▸ Option.some_ne_none _⟩
    · exact nomatch houtruns.symm.trans (CallHistory.not_ahead_of_cons hahead rfl).1
  | done hgrounded hagrees => exact ⟨hgrounded, fun _ => hagrees⟩

theorem follow_steady {calls : List DirectoryCall} {history' : CallHistory} (h : Steady history s)
    (hfollow : s.follow history calls = some (history', s')) : Steady history' s' := by
  induction calls generalizing history s with
  | nil =>
    obtain ⟨rfl, rfl⟩ := Prod.mk.inj (Option.some.inj hfollow)
    exact h
  | cons call rest ih =>
    rw [follow] at hfollow
    split at hfollow
    next => cases hfollow
    next answer s₁ hanswer => exact ih (h.step hanswer) hfollow

theorem steady_of_open {disk : Disk} {directory : Path} {name : String} {page : Nat}
    (hopen : open? disk directory name page = .ok s) : Steady [] s := by
  obtain ⟨hdisk, -, -, hload⟩ := open?_ok hopen
  obtain ⟨hgrounded, hagrees⟩ := grounded_of_load (open?_distinct hopen) (hdisk ▸ hload)
  exact ⟨hgrounded, fun _ => hagrees⟩

/-! ## Failures -/

theorem properties_list_of_state (h : s'.state = s.state) :
    s'.properties = s.properties ∧ s'.list = s.list := by
  unfold properties list
  rw [h]
  exact ⟨rfl, rfl⟩

/-- Where no sidecar file is, no object is known, unless its path cannot be read. -/
theorem reopen_of_no_sidecar (h : s.sidecarBytes? = none) :
    s.reopen = .ok { s with disk := s.disk.restart, state := none } ∨
      ∃ f, f ≠ .notFound ∧ s.disk.files.read s.sidecarPath = .error f := by
  cases hread : s.disk.files.read s.sidecarPath with
  | ok bytes => exact nomatch h.symm.trans (FileTree.read_ok hread)
  | error f =>
    by_cases hf : f = .notFound
    · left
      unfold reopen load
      rw [hread, hf]
    · exact .inr ⟨f, hf, rfl⟩

/-- A call that fails leaves the object of the store as it was, unless it has outrun the sidecar:
the store then knows of the change.  If no call has done so since the last one that succeeded, and
the store knows of an object, opening it again tells the same.  So it does if the store knows of
none, unless a sidecar without its data file was ignored, or the path of the sidecar cannot be
read. -/
theorem failures_leave_the_object {disk : Disk} {directory : Path} {name : String} {page : Nat}
    {s₀ s s' : DirectoryStore} {calls : List DirectoryCall} {history : CallHistory}
    {call : DirectoryCall} {e : StorageError}
    (hopen : open? disk directory name page = .ok s₀)
    (hfollow : s₀.follow [] calls = some (history, s))
    (hanswer : s.answer call = some (.error e, s')) :
    let w : CallRecord := ⟨call, .error e, s'.disk.log.drop s.disk.log.length⟩
    (w.outruns = false → s'.properties = s.properties ∧ s'.list = s.list) ∧
    (w.outruns = true → ∃ c, s.state = some c ∧ s'.state = some (call.change c)) ∧
    (¬CallHistory.Ahead (w :: history) →
      (∃ r, s'.reopen = .ok r ∧ r.properties = s.properties ∧ r.list = s.list) ∨
      (s.properties = none ∧ (s.sidecarBytes? ≠ none ∨
        ∃ f, f ≠ .notFound ∧ s'.disk.files.read s'.sidecarPath = .error f))) := by
  intro w
  have hsteady := follow_steady (steady_of_open hopen) hfollow
  have hsteady' := hsteady.step hanswer
  cases answer_ends hsteady.grounded hanswer with
  | unchanged hstands hstate hsidecar hwithin =>
    refine ⟨fun _ => properties_list_of_state hstate, fun houtruns => ?_, fun hahead => ?_⟩
    · exact nomatch hwithin.symm.trans houtruns
    · cases hknown : s.state with
      | some c =>
        refine .inl ?_
        have hload := hsteady'.agrees hahead c (hstate.trans hknown)
        unfold reopen
        rw [hload]
        exact ⟨_, rfl, properties_list_of_state hknown.symm⟩
      | none =>
        have hunknown : s.properties = none := by
          unfold properties
          rw [hknown]
          rfl
        by_cases hnone : s.sidecarBytes? = none
        · rcases reopen_of_no_sidecar (hsidecar.trans hnone) with hreopen | hunread
          · exact .inl ⟨_, hreopen, properties_list_of_state hknown.symm⟩
          · exact .inr ⟨hunknown, .inr hunread⟩
        · exact .inr ⟨hunknown, .inl hnone⟩
  | ahead hstands hknown hstate hsidecar houtruns =>
    refine ⟨fun hwithin => ?_, fun _ => ⟨_, hknown, hstate⟩, fun hahead => ?_⟩
    · exact nomatch houtruns.symm.trans hwithin
    · exact nomatch houtruns.symm.trans (CallHistory.not_ahead_of_cons hahead rfl).1

/-- A write fails with one byte of two in the data file.  The store lists nothing, and nothing is
listed when the object is opened again. -/
theorem failures_leave_the_object_partly_written :
    let start := newObject fun n => if n = 8 then some (.fails 1 "Input/output error") else none
    let write : DirectoryCall := .write ⟨0, 1, by decide, by decide⟩ ⟨#[7, 8]⟩
    ∃ history s e s' r, start.follow [] [.create 2 .empty] = some (history, s) ∧
      s.answer write = some (.error e, s') ∧ s'.contents = some ⟨#[7, 0]⟩ ∧
      s'.list = .ok ⟨[], none⟩ ∧ s'.reopen = .ok r ∧ r.list = .ok ⟨[], none⟩ := by
  intro start write
  have hevents : (start.follow [] [.create 2 .empty]).bind (fun r => (r.2.answer write).map fun a =>
      (r.2.state, a.1, a.2.contents,
        decide (CallHistory.Ahead (⟨write, a.1, a.2.disk.log.drop r.2.disk.log.length⟩ :: r.1)))) =
      some (some ⟨2, .empty, none, .empty⟩, .error (.file (.device "Input/output error")),
        some ⟨#[7, 0]⟩, false) := by decide +kernel
  obtain ⟨⟨history, s⟩, hfollow, hevents⟩ := Option.bind_eq_some_iff.mp hevents
  obtain ⟨⟨answer, s'⟩, hanswer, hevents⟩ := Option.map_eq_some_iff.mp hevents
  obtain ⟨hstate, hrest⟩ := Prod.mk.inj hevents
  obtain ⟨rfl, hrest⟩ := Prod.mk.inj hrest
  obtain ⟨hcontents, hahead⟩ := Prod.mk.inj hrest
  have hbehind := of_decide_eq_false hahead
  have hlist : s.list = .ok ⟨[], none⟩ := list_iff.mpr ⟨_, hstate, rfl⟩
  obtain ⟨hlive, -, hreopen⟩ := failures_leave_the_object (open?_newObject _) hfollow hanswer
  obtain ⟨-, hsame⟩ := hlive (CallHistory.not_ahead_of_cons hbehind rfl).1
  rcases hreopen hbehind with ⟨r, hr, -, hrlist⟩ | ⟨hunknown, -⟩
  · exact ⟨history, s, _, s', r, hfollow, hanswer, hcontents, hsame.trans hlist, hr,
      hrlist.trans hlist⟩
  · unfold properties at hunknown
    rw [hstate] at hunknown
    exact nomatch hunknown

/-- The sidecar cannot be written, and each call is told so.  The store lists a byte and reports a
digest all the same, and neither is told when the object is opened again. -/
theorem failures_outrun_the_sidecar :
    let start := newObject fun n =>
      if n = 10 ∨ n = 11 then some (.fails 0 "No space left on device (os error 28)") else none
    ∃ history s r, start.follow [] [.create 1 .empty, .write firstByte ⟨#[7]⟩,
        .setContentHash "digest"] = some (history, s) ∧
      history.map (fun w => w.answer.isOk) = [false, false, true] ∧
      s.list = .ok ⟨[firstByte], none⟩ ∧ s.properties = some ⟨1, .empty, some "digest"⟩ ∧
      s.reopen = .ok r ∧ r.list = .ok ⟨[], none⟩ ∧ r.properties = some ⟨1, .empty, none⟩ := by
  intro start
  have hevents : (start.follow [] [.create 1 .empty, .write firstByte ⟨#[7]⟩,
      .setContentHash "digest"]).map (fun r =>
        (r.1.map fun w => w.answer.isOk, r.2.state, r.2.reopen.toOption.map state)) =
      some ([false, false, true], some ⟨1, .empty, some "digest", ⟨[firstByte]⟩⟩,
        some (some ⟨1, .empty, none, .empty⟩)) := by decide +kernel
  obtain ⟨⟨history, s⟩, hfollow, hevents⟩ := Option.map_eq_some_iff.mp hevents
  obtain ⟨hanswers, hrest⟩ := Prod.mk.inj hevents
  obtain ⟨hstate, hreopen⟩ := Prod.mk.inj hrest
  obtain ⟨r, hr, hrstate⟩ := Option.map_eq_some_iff.mp hreopen
  have hopened : s.reopen = .ok r := by
    cases hagain : s.reopen with
    | error e =>
      rw [hagain] at hr
      exact nomatch hr
    | ok r' =>
      rw [hagain] at hr
      exact congrArg Except.ok (Option.some.inj hr)
  refine ⟨history, s, r, hfollow, hanswers, list_iff.mpr ⟨_, hstate, rfl⟩, ?_, hopened,
    list_iff.mpr ⟨_, hrstate, rfl⟩, ?_⟩
  · unfold properties
    rw [hstate]
    rfl
  · unfold properties
    rw [hrstate]
    rfl

/-- A sidecar without its data file is ignored, until a creation that fails puts an empty file
beside it. -/
example :
    let old : Sidecar := ⟨1, .empty, some "digest", ⟨[firstByte]⟩⟩
    let files := FileTree.empty.set ["object.pagesync.json"] (.file (.ofBytes old.text.toUTF8))
    let disk := { Disk.ofFiles files with
      trouble := fun n => if n = 2 then some (.fails 0 "Input/output error") else none }
    (open? disk [] "object" 1).toOption.map (fun s =>
      (s.state, (s.create 1 .empty).2.reopen.toOption.map state)) =
        some (none, some (some old)) := by
  decide +kernel

end DirectoryStore
end ImageUpload
