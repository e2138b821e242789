import ImageUpload.Proofs.Session.Drive
import ImageUpload.Proofs.Session.Success
import ImageUpload.Proofs.Store.Disturbed
import ImageUpload.Session.Sync

/-
An image that is brought to a store in as many runs as it takes.

Each run may lose any of its calls and writes.  What the store holds after it is a part
of the image all the same, `MemoryStore.PartOf`, and this is all that the next run has to
know of those before it: `resumed_runs_reproduce`.
-/

namespace ImageUpload

variable {image : ByteArray} {hash : String}

/-! ## The writes of one upload -/

/-- Writes of bytes of the image keep a part of it, and what was acknowledged is written. -/
theorem Replays.partOf {s₀ s : DisturbedStore MemoryStore} {writes : List WriteRecord}
    (h : Replays s₀ writes s) (hpart : s₀.inner.PartOf image hash)
    (hdata : ∀ w ∈ writes, ∀ i, w.chunk.range.Has i →
      byteOf w.chunk.data (i - w.chunk.range.first) = byteOf image i) :
    s.inner.PartOf image hash ∧ (∀ i, s₀.inner.written.Has i → s.inner.written.Has i) ∧
      ∀ w ∈ writes, w.result = .ok () → ∀ i, w.chunk.range.Has i → s.inner.written.Has i := by
  induction h with
  | start => exact ⟨hpart, fun _ hi => hi, nofun⟩
  | @write writes store store' c result h hwrite ih =>
    obtain ⟨ihpart, ihkept, ihacked⟩ := ih fun w hw => hdata w (List.mem_append_left _ hw)
    have hchunk := hdata ⟨c, result⟩ (List.mem_append_right _ List.mem_cons_self)
    have hstep : store'.inner.PartOf image hash ∧
        (∀ i, store.inner.written.Has i → store'.inner.written.Has i) ∧
        (result = .ok () → ∀ i, c.range.Has i → store'.inner.written.Has i) := by
      rcases DisturbedStore.write_cases hwrite with ⟨hinner, hne⟩ | ⟨answer, hanswer, hok⟩
      · rw [hinner]
        exact ⟨ihpart, fun _ hi => hi, fun hr => absurd hr hne⟩
      · obtain ⟨hpart', hkept, hacked⟩ := ihpart.write hchunk hanswer
        exact ⟨hpart', hkept, fun hr => hacked (hok hr)⟩
    obtain ⟨hpart', hkept, hacked⟩ := hstep
    refine ⟨hpart', fun i hi => hkept i (ihkept i hi), fun w hw hr i hi => ?_⟩
    rcases List.mem_append.mp hw with hw | hw
    · exact hkept i (ihacked w hw hr i hi)
    · rw [List.mem_singleton.mp hw] at hr hi
      exact hacked hr i hi

/-- A run over a store that holds a part of the image: the store holds a part of it
afterwards, nothing that was there has been written, and success means that nothing is
missing. -/
structure UploadRun.Extends (r : UploadRun (DisturbedStore MemoryStore)) (m : MemoryStore)
    (image : ByteArray) (hash : String) : Prop where
  part : r.store.inner.PartOf image hash
  lacking : ∀ w ∈ r.writes, ∀ i, w.chunk.range.Has i → ¬m.written.HasPage m.page i
  whole : ∀ result, r.result = .ok result → result.success = true →
    ∀ o, r.store.inner.object = some o → ∀ i, o.data.byteAt i = byteOf image i

theorem UploadRun.refused_extends {s : DisturbedStore MemoryStore}
    (hpart : s.inner.PartOf image hash) (e : UploadError) (m : MemoryStore) :
    (UploadRun.refused e s).Extends m image hash :=
  ⟨hpart, nofun, nofun⟩

namespace Upload

variable {source : Source} {options : UploadOptions}

/-- However a session comes to its end, it has brought the store on by a part of the image. -/
theorem ofSession_extends {store : DisturbedStore MemoryStore} {p : Plan} {r : Reader}
    {parallelism : Nat} {actions : List SessionAction} {s : Session (DisturbedStore MemoryStore)}
    (hholds : source.Holds image) (hsteady : source.Steady)
    (hpart : store.inner.PartOf image hash) (hsource : r.source = source)
    (hserves : p.Serves (layoutFor options store) store.inner.written source)
    (hrun : (Session.start options parallelism p r store).run actions = some s) :
    (UploadRun.ofSession s).Extends store.inner image hash := by
  have hJ : ∀ a ∈ actions, Session.Draws (fun _ => True) a := fun a _ => Session.draws_true a
  have hinvariant := Session.invariant_run hJ hrun
  obtain ⟨hp, -⟩ := Session.constants_run hJ hrun
  have hdata : ∀ w ∈ s.writes, ∀ i, w.chunk.range.Has i →
      byteOf w.chunk.data (i - w.chunk.range.first) = byteOf image i := by
    intro w hw i hi
    obtain ⟨range, -, hchunk⟩ := List.mem_map.mp (hinvariant.mem_sent_of_write hw)
    rw [← hchunk] at hi ⊢
    rw [hsource, ← hholds.bytes]
    exact source.byteOf_slice range hi
  obtain ⟨hpart', hkept, hacked⟩ := hinvariant.replays.partOf hpart hdata
  refine ⟨hpart', fun w hw i hi => ?_, fun result hresult hsuccess o ho i => ?_⟩
  · have hrange := List.mem_of_mem_take (hinvariant.range_mem_of_write hw)
    rw [hp] at hrange
    exact hserves.lacking _ hrange i hi
  · have hclaims : s.ClaimsSuccess := .inl ⟨result, UploadRun.result?_of_ok hresult, hsuccess⟩
    have hall := (hinvariant.acknowledged_iff hclaims (hp ▸ hserves.nodup)).mpr
      (Reader.sweep_steady (hsource ▸ hsteady) (hp ▸ hsource ▸ hserves.room))
    rw [hp] at hall
    have hwritten : s.store.inner.written.Has i → o.data.byteAt i = byteOf image i := by
      intro hi
      exact hpart'.written o ho i (MemoryStore.written_eq ho ▸ hi)
    by_cases hi : i < source.size
    · rcases hserves.rest i hi with ⟨range, hrange, hhas⟩ | hpage | hzero
      · obtain ⟨w, hw, hwrange, hok⟩ := hall range hrange
        exact hwritten (hacked w hw hok i (hwrange ▸ hhas))
      · exact hwritten (hkept i (hpage i rfl))
      · -- a byte that is left out is zero in the image, and nothing else can be in its place
        rw [hholds.bytes] at hzero
        rcases hpart'.bytes o ho i with h | h
        · rw [h, hzero]
        · exact h
    · have hzero : byteOf image i = 0 := byteOf_of_le (by rw [← hholds.size]; omega)
      rcases hpart'.bytes o ho i with h | h
      · rw [h, hzero]
      · exact h

theorem runBy_extends {drive : Session (DisturbedStore MemoryStore) →
      Session (DisturbedStore MemoryStore)} {store : DisturbedStore MemoryStore}
    {parallelism : Option Nat} {present : RangeSet} {resume : Bool}
    (hdrive : Session.Drives drive) (hholds : source.Holds image) (hsteady : source.Steady)
    (hsize : image.size < 2 ^ 64) (hpart : store.inner.PartOf image hash)
    (hpresent : (if resume then present else .empty) = store.inner.written) :
    (runBy drive options parallelism source present resume store).Extends store.inner image hash := by
  unfold runBy
  rw [hpresent]
  split
  next e r _ => exact UploadRun.refused_extends hpart e _
  next p r hplan =>
    have hsize' : source.size ≤ 2 ^ 64 := by
      rw [hholds.size]
      exact Nat.le_of_lt hsize
    obtain ⟨hserves, hsource⟩ := plan_ok hsize' hpart.canonical hplan
    obtain ⟨actions, hactions⟩ :=
      hdrive (Session.start options (workers options parallelism) p r store)
    exact ofSession_extends hholds hsteady hpart hsource hserves hactions

end Upload

/-- What a session that starts here takes to be present. -/
def SessionStart.present : SessionStart → RangeSet
  | .fresh => .empty
  | .resume present => present

namespace Sync

variable {here : ImageMetadata} {s s' : DisturbedStore MemoryStore}

/-! ## The start and the end of a run -/

/-- Before the session nothing is lost, and what it takes to be present is written. -/
structure Prepared (image : ByteArray) (hash : String) (s s' : DisturbedStore MemoryStore)
    (result : Except UploadError SessionStart) : Prop where
  part : s'.inner.PartOf image hash
  page : s'.inner.page = s.inner.page
  written : s'.inner.written = s.inner.written
  present : ∀ start, result = .ok start → start.present = s.inner.written

theorem Prepared.of_error (hpart : s.inner.PartOf image hash) (hinner : s'.inner = s.inner)
    (e : UploadError) : Prepared image hash s s' (.error e) :=
  ⟨hinner ▸ hpart, hinner ▸ rfl, hinner ▸ rfl, nofun⟩

theorem createFor_prepared {result : Except UploadError SessionStart}
    (hpart : s.inner.PartOf image here.contentHash) (hsize : here.size = image.size)
    (hnone : s.inner.object = none) (h : createFor here s = (result, s')) :
    Prepared image here.contentHash s s' result := by
  unfold createFor at h
  split at h
  next e s₁ hcreate =>
    injection h with hr hs
    subst hr hs
    refine .of_error hpart ?_ _
    rcases DisturbedStore.relay_cases hcreate with ⟨hinner, -⟩ | hanswer
    · exact hinner
    · rcases MemoryStore.create_cases hanswer with ⟨hinner, -⟩ | ⟨hok, -⟩
      · exact hinner
      · exact nomatch hok
  next u s₁ hcreate =>
    injection h with hr hs
    subst hr hs
    rcases DisturbedStore.relay_cases hcreate with ⟨-, e, he⟩ | hanswer
    · exact nomatch he
    · rcases MemoryStore.create_cases hanswer with ⟨-, hne⟩ | ⟨-, hinner⟩
      · exact absurd rfl hne
      · have hempty : s.inner.written = .empty := by
          unfold MemoryStore.written
          rw [hnone]
          rfl
        rw [hsize] at hinner
        have hobject : s₁.inner.object =
            some ⟨.zeros image.size, here.toEntries, none, .empty⟩ := by
          rw [hinner]
        refine ⟨MemoryStore.partOf_zeros hobject, ?_, ?_, ?_⟩
        · rw [hinner]
        · rw [hempty, MemoryStore.written_eq hobject]
        · intro start hstart
          injection hstart with hstart
          rw [hempty, ← hstart]
          rfl

theorem resumeFrom_prepared {found : ObjectProperties} {result : Except UploadError SessionStart}
    (hpart : s.inner.PartOf image hash) (h : resumeFrom here found s = (result, s')) :
    Prepared image hash s s' result := by
  have hsame : ∀ e, (result, s') = ((.error e : Except UploadError SessionStart), s) →
      Prepared image hash s s' result := by
    intro e heq
    injection heq with hr hs
    subst hr hs
    exact .of_error hpart rfl e
  unfold resumeFrom at h
  split at h
  next _ => exact hsame _ h.symm
  next _ =>
    split at h
    next f _ => exact hsame _ h.symm
    next _ => exact hsame _ h.symm
    next remote _ =>
      split at h
      next _ => exact hsame _ h.symm
      next _ =>
        have hinner := DisturbedStore.listFrom_inner (PageStore.listingBound s) none .empty s
        split at h
        next e s₁ hlist =>
          injection h with hr hs
          subst hr hs
          change PageStore.listFrom _ _ _ s = _ at hlist
          rw [hlist] at hinner
          exact .of_error hpart hinner _
        next present s₁ hlist =>
          have hpresent := DisturbedStore.listAll_ok hpart.canonical hlist
          injection h with hr hs
          subst hr hs
          change PageStore.listFrom _ _ _ s = _ at hlist
          rw [hlist] at hinner
          change s₁.inner = s.inner at hinner
          refine ⟨hinner ▸ hpart, hinner ▸ rfl, hinner ▸ rfl, fun start hstart => ?_⟩
          injection hstart with hstart
          rw [← hstart]
          exact hpresent

/-- An object is made only where there is none, so that no run undoes those before it. -/
theorem prepare_prepared {result : Except UploadError SessionStart}
    (hpart : s.inner.PartOf image here.contentHash) (hsize : here.size = image.size)
    (h : prepare false here s = (result, s')) :
    Prepared image here.contentHash s s' result := by
  unfold prepare at h
  rw [if_neg nofun] at h
  split at h
  next e _ =>
    injection h with hr hs
    subst hr hs
    exact .of_error hpart rfl _
  next hfound =>
    have hnone := DisturbedStore.properties_ok hfound
    exact createFor_prepared hpart hsize (Option.map_eq_none_iff.mp hnone.symm) h
  next found _ => exact resumeFrom_prepared hpart h

/-- The digest is recorded at most where nothing is missing, and a run that returns has
recorded it. -/
theorem recordHash_extends {r : UploadRun (DisturbedStore MemoryStore)} {m : MemoryStore}
    (h : r.Extends m image here.contentHash) :
    (recordHash here r).writes = r.writes ∧
      (recordHash here r).store.inner.PartOf image here.contentHash ∧
      ∀ result, (recordHash here r).result = .ok result →
        ∃ o, (recordHash here r).store.inner.object = some o ∧
          o.contentHash = some here.contentHash := by
  unfold recordHash
  split
  next e _ => exact ⟨rfl, h.part, nofun⟩
  next result hresult =>
    have hsuccess : r.result = .ok result ∧ result.success = true := by
      cases hr : r.result with
      | error e =>
        rw [hr] at hresult
        exact nomatch hresult
      | ok result' =>
        rw [hr] at hresult
        change result'.toExcept = .ok result at hresult
        unfold SessionResult.toExcept at hresult
        split at hresult
        next hs =>
          injection hresult with hresult
          exact ⟨congrArg Except.ok hresult, hresult ▸ hs⟩
        next _ => exact nomatch hresult
    have hwhole := h.whole result hsuccess.1 hsuccess.2
    split
    next e s hset =>
      refine ⟨rfl, ?_, nofun⟩
      rcases DisturbedStore.relay_cases hset with ⟨hinner, -⟩ | hanswer
      · exact hinner ▸ h.part
      · exact (h.part.setContentHash hwhole hanswer).1
    next u s hset =>
      rcases DisturbedStore.relay_cases hset with ⟨-, e, he⟩ | hanswer
      · exact nomatch he
      · obtain ⟨hpart, hrecorded⟩ := h.part.setContentHash hwhole hanswer
        exact ⟨rfl, hpart, fun _ _ => hrecorded rfl⟩

/-! ## Runs one after another -/

/-- One attempt at bringing an image to a store in memory, with what becomes of its calls
and the order in which things happen. -/
structure Attempt where
  options : UploadOptions
  source : Source
  disturbance : Disturbance
  drive : Session (DisturbedStore MemoryStore) → Session (DisturbedStore MemoryStore)

namespace Attempt

/-- The source holds the image and does not panic, though any of its calls may fail. -/
structure Fair (a : Attempt) (image : ByteArray) : Prop where
  holds : a.source.Holds image
  steady : a.source.Steady
  drives : Session.Drives a.drive

def run (a : Attempt) (here : ImageMetadata) (m : MemoryStore) :
    UploadRun (DisturbedStore MemoryStore) :=
  runBy a.drive a.options false (fun _ => a.source) here (.around m a.disturbance)

end Attempt

/-- The store after these attempts, of which each finds what those before it left. -/
def after (here : ImageMetadata) (m : MemoryStore) (attempts : List Attempt) : MemoryStore :=
  attempts.foldl (fun m a => (a.run here m).store.inner) m

/-- What one attempt does to a part of the image. -/
theorem Attempt.run_extends {a : Attempt} {m : MemoryStore} (hfair : a.Fair image)
    (hsize : here.size = image.size) (hpart : m.PartOf image here.contentHash) :
    (a.run here m).store.inner.PartOf image here.contentHash ∧
      (∀ w ∈ (a.run here m).writes, ∀ i, w.chunk.range.Has i → ¬m.written.HasPage m.page i) ∧
      ∀ result, (a.run here m).result = .ok result →
        ∃ o, (a.run here m).store.inner.object = some o ∧
          o.contentHash = some here.contentHash := by
  have hlt : image.size < 2 ^ 64 := hsize ▸ here.size_lt
  have hextends : ∀ (present : RangeSet) (resume : Bool) {s : DisturbedStore MemoryStore}
      {result : Except UploadError SessionStart},
      Prepared image here.contentHash (.around m a.disturbance) s result →
      (if resume then present else .empty) = s.inner.written →
      (Upload.runBy a.drive a.options none a.source present resume s).Extends m image
        here.contentHash := by
    intro present resume s result hprepared hpresent
    have h : (Upload.runBy a.drive a.options none a.source present resume s).Extends s.inner
        image here.contentHash :=
      Upload.runBy_extends hfair.drives hfair.holds hfair.steady hlt hprepared.part hpresent
    refine ⟨h.part, ?_, h.whole⟩
    have hpage : s.inner.page = m.page := hprepared.page
    have hwritten : s.inner.written = m.written := hprepared.written
    rw [← hpage, ← hwritten]
    exact h.lacking
  unfold run runBy
  split
  next e s hprepare =>
    have hprepared := prepare_prepared hpart hsize hprepare
    exact ⟨hprepared.part, nofun, nofun⟩
  next s hprepare =>
    have hprepared := prepare_prepared hpart hsize hprepare
    have hpresent : RangeSet.empty = s.inner.written :=
      (hprepared.present _ rfl).trans hprepared.written.symm
    have h := hextends .empty false hprepared hpresent
    obtain ⟨hwrites, hpart', hok⟩ := recordHash_extends h
    refine ⟨hpart', ?_, hok⟩
    rw [hwrites]
    exact h.lacking
  next present s hprepare =>
    have hprepared := prepare_prepared hpart hsize hprepare
    have hpresent : present = s.inner.written :=
      (hprepared.present _ rfl).trans hprepared.written.symm
    have h := hextends present true hprepared hpresent
    obtain ⟨hwrites, hpart', hok⟩ := recordHash_extends h
    refine ⟨hpart', ?_, hok⟩
    rw [hwrites]
    exact h.lacking

theorem after_partOf {m : MemoryStore} {attempts : List Attempt}
    (hfair : ∀ a ∈ attempts, a.Fair image) (hsize : here.size = image.size)
    (hpart : m.PartOf image here.contentHash) :
    (after here m attempts).PartOf image here.contentHash := by
  induction attempts generalizing m with
  | nil => exact hpart
  | cons a rest ih =>
    exact ih (fun b hb => hfair b (List.mem_cons_of_mem _ hb))
      (a.run_extends (hfair a List.mem_cons_self) hsize hpart).1

/-- However many runs failed before, and wherever they stopped, the next one finds a part
of the image and writes nothing of what is there.  It leaves a part of the image, and an
object with a digest is the image.  A run that returns has made it so. -/
theorem resumed_runs_reproduce {m : MemoryStore} (hnone : m.object = none)
    (hsize : here.size = image.size) {before : List Attempt}
    (hbefore : ∀ b ∈ before, b.Fair image) {a : Attempt} (hfair : a.Fair image) :
    let start := after here m before
    let r := a.run here start
    (∀ bytes, r.store.inner.contents = some bytes → bytes.size = image.size ∧
        ∀ i, (byteOf bytes i = 0 ∨ byteOf bytes i = byteOf image i) ∧
          (r.store.inner.written.Has i → byteOf bytes i = byteOf image i)) ∧
      (∀ o digest, r.store.inner.object = some o → o.contentHash = some digest →
        digest = here.contentHash ∧ r.store.inner.contents = some image) ∧
      (∀ result, r.result = .ok result → r.store.inner.contents = some image ∧
        ∃ o, r.store.inner.object = some o ∧ o.contentHash = some here.contentHash) ∧
      ∀ w ∈ r.writes, ∀ i, w.chunk.range.Has i → ¬start.written.HasPage start.page i := by
  intro start r
  have hstart : start.PartOf image here.contentHash :=
    after_partOf hbefore hsize (MemoryStore.partOf_of_none hnone image here.contentHash)
  obtain ⟨hpart, hlacking, hok⟩ := a.run_extends hfair hsize hstart
  refine ⟨fun bytes hbytes => ?_, fun o digest ho hd => hpart.contents_eq ho hd,
    fun result hresult => ?_, hlacking⟩
  · obtain ⟨o, ho, hdata⟩ := Option.map_eq_some_iff.mp hbytes
    rw [← hdata]
    refine ⟨(SparseBytes.size_toBytes _).trans (hpart.size o ho), fun i => ?_⟩
    rw [SparseBytes.byteOf_toBytes]
    refine ⟨hpart.bytes o ho i, fun hi => hpart.written o ho i ?_⟩
    rw [← MemoryStore.written_eq ho]
    exact hi
  · obtain ⟨o, ho, hd⟩ := hok result hresult
    exact ⟨(hpart.contents_eq ho hd).2, o, ho, hd⟩

/-- Two bytes, of which the first attempt loses the second one. -/
def pairHere : ImageMetadata :=
  ⟨"pair", 2, ⟨0, 0, by decide, by decide, by decide, by decide⟩, "digest", by decide⟩

def losingAttempt : Attempt :=
  ⟨Upload.byteOptions, .ofBytes ⟨#[1, 2]⟩,
    { write := fun range _ => if range.first = 1 then .fails false .notFound else .passes },
    Session.complete true⟩

def finishingAttempt : Attempt :=
  ⟨Upload.byteOptions, .ofBytes ⟨#[1, 2]⟩, {}, Session.complete true⟩

/-- The first attempt fails.  The second one sends what is missing and nothing else, and
the object is the image. -/
theorem resumed_runs_reproduce_pair :
    let start := after pairHere (.empty 1 1) [losingAttempt]
    let r := finishingAttempt.run pairHere start
    (losingAttempt.run pairHere (.empty 1 1)).result.toOption.isNone = true ∧
      r.result.toOption.isSome = true ∧ r.writes.length = 1 ∧
      r.store.inner.contents = some ⟨#[1, 2]⟩ ∧
      ∀ w ∈ r.writes, ∀ i, w.chunk.range.Has i → ¬start.written.HasPage start.page i := by
  have hsize : pairHere.size = ByteArray.size ⟨#[1, 2]⟩ := rfl
  have hsteady := Source.ofBytes_steady ⟨#[1, 2]⟩
  have hlosing : losingAttempt.Fair ⟨#[1, 2]⟩ := ⟨⟨rfl, rfl⟩, hsteady, Session.drives_complete true⟩
  have hfinishing : finishingAttempt.Fair ⟨#[1, 2]⟩ :=
    ⟨⟨rfl, rfl⟩, hsteady, Session.drives_complete true⟩
  have hbefore : ∀ b ∈ [losingAttempt], b.Fair ⟨#[1, 2]⟩ := by
    intro b hb
    rw [List.mem_singleton.mp hb]
    exact hlosing
  have hrun := resumed_runs_reproduce (m := .empty 1 1) rfl hsize hbefore hfinishing
  have hruns : (losingAttempt.run pairHere (.empty 1 1)).result.toOption.isNone = true ∧
      (finishingAttempt.run pairHere
        (after pairHere (.empty 1 1) [losingAttempt])).result.toOption.isSome = true ∧
      (finishingAttempt.run pairHere
        (after pairHere (.empty 1 1) [losingAttempt])).writes.length = 1 := by
    decide +kernel
  simp only at hrun ⊢
  revert hrun hruns
  generalize after pairHere (.empty 1 1) [losingAttempt] = start
  generalize finishingAttempt.run pairHere start = r
  rintro hrun ⟨hfirst, hok, hwrites⟩
  obtain ⟨result, hresult⟩ := Option.isSome_iff_exists.mp hok
  have hreturned := hrun.2.2.1 result (Upload.eq_ok_of_toOption hresult)
  exact ⟨hfirst, hok, hwrites, hreturned.1, hrun.2.2.2⟩

end Sync
end ImageUpload
