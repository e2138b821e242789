import ImageUpload.Proofs.Resume
import ImageUpload.Proofs.Session.Exact

/-
The writes of a session on their way into the object.

The geometry of a write is settled by the plan, long before the store checks it: the pages are
those of the store, and no range is in the plan twice.  So every write fits the object, requests
differ in their bytes, and an attempt that is made again brings the same bytes, `Orderly`.  What
the object comes to is then told by which writes have landed, and not by their order.
-/

namespace ImageUpload

/-- An object on which these chunks have landed, one after another. -/
def landed (b : ByteArray) (chunks : List Chunk) : ByteArray :=
  chunks.foldl (fun b c => overwrite b c.range.first c.data) b

/-- The bytes that an image has in the range of the chunk. -/
def Chunk.Shows (image : ByteArray) (c : Chunk) : Prop :=
  c.range.last < image.size ∧ c.data = image.extract c.range.first (c.range.last + 1)

/-- Where chunks of an image have landed, in whatever order, there is the image. -/
theorem landed_eq {image b : ByteArray} {chunks : List Chunk}
    (h : ∀ c ∈ chunks, c.Shows image) :
    landed b chunks = (chunks.map Chunk.range).foldl (Plan.replace image) b := by
  unfold landed
  rw [List.foldl_map]
  refine List.foldl_ext _ _ _ fun b c hc => ?_
  rw [Plan.replace, (h c hc).2]

theorem landed_congr {image b : ByteArray} {chunks other : List Chunk}
    (hsize : b.size = image.size) (h : ∀ c ∈ chunks, c.Shows image)
    (hsame : ∀ c, c ∈ other ↔ c ∈ chunks) : landed b other = landed b chunks := by
  have hother : ∀ c ∈ other, c.Shows image := fun c hc => h c ((hsame c).mp hc)
  have hinside : ∀ {l : List Chunk}, (∀ c ∈ l, c.Shows image) →
      ∀ r ∈ l.map Chunk.range, r.last < image.size := by
    intro l hl r hr
    obtain ⟨c, hc, rfl⟩ := List.mem_map.mp hr
    exact (hl c hc).1
  have hranges : ∀ r, r ∈ other.map Chunk.range ↔ r ∈ chunks.map Chunk.range := by
    simp only [List.mem_map, hsame, implies_true]
  rw [landed_eq h, landed_eq hother]
  refine ext_byteOf ?_ fun o _ => ?_
  · rw [Plan.size_foldl_replace hsize (hinside h), Plan.size_foldl_replace hsize (hinside hother)]
  · rw [Plan.byteOf_foldl_replace (hinside h), Plan.byteOf_foldl_replace (hinside hother)]
    simp only [hranges]

namespace Session

variable {σ : Type}

/-- The writes, each with the ticket of the request that it is an attempt at. -/
def calls (s : Session σ) : List (Nat × WriteRecord) :=
  (s.pool.ends.map Prod.fst).zip s.writes

/-- The chunks that the store has acknowledged, the first one first. -/
def arrived (s : Session σ) : List Chunk :=
  (s.writes.filter fun w => w.result.isOk).map WriteRecord.chunk

/-- What holds of the writes of a session for an object of this page size and an image that is as
large as the object. -/
structure Orderly (s : Session σ) (page : Nat) (image : ByteArray) : Prop where
  /-- Every write is an attempt at a request. -/
  attributed : s.calls.map Prod.snd = s.writes
  /-- None of the reasons for a refusal applies. -/
  fits : ∀ w ∈ s.writes, PageStore.refusal? page image.size w.chunk.range w.chunk.data = none
  exact : ∀ w ∈ s.writes,
    w.chunk.data = image.extract w.chunk.range.first (w.chunk.range.last + 1)
  /-- Attempts at one request, or at one range, bring the same. -/
  repeated : ∀ x ∈ s.calls, ∀ y ∈ s.calls, x.1 = y.1 ∨ x.2.chunk.range = y.2.chunk.range →
    x.2.chunk = y.2.chunk
  /-- Different requests have no byte in common. -/
  apart : ∀ x ∈ s.calls, ∀ y ∈ s.calls, x.1 ≠ y.1 →
    ∀ o, x.2.chunk.range.Has o → ¬y.2.chunk.range.Has o
  /-- The object is the same in whatever order, and however often, the acknowledged writes land. -/
  unordered : ∀ b, b.size = image.size → ∀ chunks, (∀ c, c ∈ chunks ↔ c ∈ s.arrived) →
    landed b chunks = landed b s.arrived

variable {s : Session σ} {r : Reader} {J : Float → Prop}

theorem mem_writes_of_arrived {c : Chunk} (h : c ∈ s.arrived) :
    ∃ w ∈ s.writes, w.chunk = c := by
  obtain ⟨w, hw, hc⟩ := List.mem_map.mp h
  exact ⟨w, (List.mem_filter.mp hw).1, hc⟩

/-- A call writes the chunk that was sent under its ticket. -/
theorem Written.chunk_of_call (h : s.Written r) {x : Nat × WriteRecord} (hx : x ∈ s.calls) :
    (s.sent r)[x.1]? = some x.2.chunk := by
  unfold calls at hx
  obtain ⟨i, hi⟩ := List.mem_iff_getElem?.mp hx
  obtain ⟨hticket, hwrite⟩ := List.getElem?_zip_eq_some.mp hi
  rw [List.getElem?_map] at hticket
  obtain ⟨e, he, hfst⟩ := Option.map_eq_some_iff.mp hticket
  obtain ⟨hlt, hget⟩ := List.getElem?_eq_some_iff.mp he
  obtain ⟨hlt', hget'⟩ := List.getElem?_eq_some_iff.mp hwrite
  have hpair := (List.forall₂_iff_get.mp h).2 i hlt hlt'
  rw [List.get_eq_getElem, List.get_eq_getElem, hget, hget', hfst] at hpair
  exact hpair.1

variable [PageStore σ] {store₀ : σ}

/-- A write brings the image's bytes for a range of the plan. -/
theorem Invariant.shows_of_write {image : ByteArray} {l : Layout} {present : RangeSet}
    (h : s.Invariant J r store₀) (hserves : s.plan.Serves l present r.source)
    (hsource : r.source.Holds image) {w : WriteRecord} (hw : w ∈ s.writes) :
    w.chunk.range ∈ s.plan.ranges ∧ w.chunk.Whole r.source ∧ w.chunk.Shows image := by
  have hmem := List.mem_of_mem_take (h.range_mem_of_write hw)
  have hwhole := h.delivery.whole w.chunk (List.mem_append_left _ (h.mem_sent_of_write hw))
  have hdata : w.chunk.data = r.source.slice w.chunk.range := congrArg Chunk.data hwhole.1
  refine ⟨hmem, hwhole, hsource.size ▸ hserves.inside _ hmem, ?_⟩
  rw [hdata, ← hsource.bytes]
  rfl

/-- Sessions whose plan serves the pages of their store write in good order. -/
theorem Invariant.orderly {image : ByteArray} {l : Layout} {present : RangeSet}
    (h : s.Invariant J r store₀) (hserves : s.plan.Serves l present r.source)
    (hsource : r.source.Holds image) : s.Orderly l.page image := by
  have hchunk : ∀ w ∈ s.writes, w.chunk.range ∈ s.plan.ranges ∧ w.chunk.Whole r.source ∧
      w.chunk.Shows image := fun _ => h.shows_of_write hserves hsource
  have hcall : ∀ x ∈ s.calls, (s.sent r)[x.1]? = some x.2.chunk ∧ x.2 ∈ s.writes :=
    fun x hx => ⟨h.written.chunk_of_call hx, (List.of_mem_zip hx).2⟩
  have hlength : s.pool.ends.length = s.writes.length := h.written.length_eq
  constructor
  case attributed =>
    refine List.map_snd_zip ?_
    rw [List.length_map, hlength]
  case fits =>
    intro w hw
    obtain ⟨hmem, hwhole, -⟩ := hchunk w hw
    exact hwhole.fits hserves.fits.page_pos (hserves.onPages _ hmem)
      (hsource.size ▸ hserves.inside _ hmem)
  case exact => exact fun w hw => (hchunk w hw).2.2.2
  case repeated =>
    intro x hx y hy hsame
    obtain ⟨hxsent, hxw⟩ := hcall x hx
    obtain ⟨hysent, hyw⟩ := hcall y hy
    rcases hsame with hticket | hrange
    · rw [hticket, hysent] at hxsent
      injection hxsent with heq
      exact heq.symm
    · rw [(hchunk _ hxw).2.1.1, (hchunk _ hyw).2.1.1, hrange]
  case apart =>
    intro x hx y hy hne o hxo hyo
    obtain ⟨hxsent, hxw⟩ := hcall x hx
    obtain ⟨hysent, hyw⟩ := hcall y hy
    -- ranges of the plan that share a byte are one, and it stands in the plan only once
    have hrange : x.2.chunk.range = y.2.chunk.range :=
      ByteRange.eq_of_has_of_ascending hserves.ascending (hchunk _ hxw).1 (hchunk _ hyw).1 hxo hyo
    obtain ⟨a, ha, -, hax⟩ := getElem?_sent hxsent
    obtain ⟨b, hb, -, hby⟩ := getElem?_sent hysent
    obtain rfl : a = b := by
      rw [hax, hby] at hrange
      exact hrange
    have hlt := (List.getElem?_eq_some_iff.mp ha).1
    exact hne ((List.getElem?_inj hlt hserves.nodup).mp (ha.trans hb.symm))
  case unordered =>
    intro b hb chunks hsame
    refine landed_congr hb (fun c hc => ?_) hsame
    obtain ⟨w, hw, rfl⟩ := mem_writes_of_arrived hc
    exact (hchunk w hw).2.2

end Session

namespace Upload

variable {σ : Type} [PageStore σ] {options : UploadOptions} {parallelism : Option Nat}
  {source : Source} {image : ByteArray} {present : RangeSet} {resume : Bool} {p : Plan} {r : Reader}
  {actions : List SessionAction}

/-- At every moment of a run the plan serves the pages of the store. -/
theorem served_run {store : σ} {s : Session σ} (hsource : source.Holds image)
    (hsize : image.size < 2 ^ 64) (hpresent : present.Canonical)
    (hplan : plan options source (if resume then present else .empty) store = (.ok p, r))
    (hrun : (Session.start options (workers options parallelism) p r store).run actions = some s) :
    s.Invariant Jittered r store ∧ r.source.Holds image ∧
      s.plan.Serves (layoutFor options store) (if resume then present else .empty) r.source := by
  have hsize' : source.size ≤ 2 ^ 64 := by
    rw [hsource.size]
    exact Nat.le_of_lt hsize
  have hskipped : (if resume then present else RangeSet.empty).Canonical := by
    split
    · exact hpresent
    · exact RangeSet.canonical_empty
  obtain ⟨hserves, hreader⟩ := plan_ok hsize' hskipped hplan
  have hJ := Session.jittered_of_run hrun
  obtain ⟨hp, -⟩ := Session.constants_run hJ hrun
  rw [← hp, ← hreader] at hserves
  exact ⟨Session.invariant_run hJ hrun, hreader ▸ hsource, hserves⟩

/-- Whatever the store answers and whatever takes turns with what, the writes of an upload are in
good order.  The configured page size plays no part in it. -/
theorem orderly_run {store : σ} {s : Session σ} (hsource : source.Holds image)
    (hsize : image.size < 2 ^ 64) (hpresent : present.Canonical)
    (hplan : plan options source (if resume then present else .empty) store = (.ok p, r))
    (hrun : (Session.start options (workers options parallelism) p r store).run actions = some s) :
    s.Orderly (PageStore.pageSize store) image := by
  obtain ⟨hinvariant, hholds, hserves⟩ := served_run hsource hsize hpresent hplan hrun
  exact hinvariant.orderly hserves hholds

/-- Two bytes in a store whose first write of each range fails.  Of the second byte no write
succeeds, and each byte is written twice. -/
theorem orderly_run_repeated :
    let first : ByteRange := ⟨0, 0, by decide, by decide⟩
    let second : ByteRange := ⟨1, 1, by decide, by decide⟩
    let planned := plan twiceOptions (.ofBytes ⟨#[1, 2]⟩) .empty fadingStore
    ∃ actions s, (Session.start twiceOptions 1 ⟨2, [first, second]⟩ planned.2 fadingStore).run
        actions = some s ∧
      s.calls.map (fun x => (x.1, x.2.chunk.range)) =
        [(0, first), (0, first), (1, second), (1, second)] ∧
      s.Orderly 1 ⟨#[1, 2]⟩ := by
  intro first second planned
  have hplanned : planned.1.toOption.map (fun p => (p.size, p.ranges)) =
      some (2, [first, second]) := by decide +kernel
  have hcalls : ((Session.complete true (Session.start twiceOptions 1 ⟨2, [first, second]⟩
      planned.2 fadingStore)).calls.map fun x => (x.1, x.2.chunk.range)) =
        [(0, first), (0, first), (1, second), (1, second)] := by decide +kernel
  have hplan : plan twiceOptions (.ofBytes ⟨#[1, 2]⟩) (if false then .empty else .empty)
      fadingStore = planned := rfl
  clear_value planned
  rw [eq_of_planned hplanned] at hplan
  obtain ⟨actions, hrun⟩ := Session.drives_complete true
    (Session.start twiceOptions 1 ⟨2, [first, second]⟩ planned.2 fadingStore)
  have hrun' : (Session.start twiceOptions (workers twiceOptions none) ⟨2, [first, second]⟩
      planned.2 fadingStore).run actions = some _ := hrun
  exact ⟨actions, _, hrun, hcalls, orderly_run (Source.ofBytes_delivers ⟨#[1, 2]⟩ (by decide)).toHolds
    (by decide) RangeSet.canonical_empty hplan hrun'⟩

end Upload

/-! ## The store in memory -/

theorem SparseBytes.toBytes_write {s : SparseBytes} {offset : Nat} {data : ByteArray}
    (h : offset + data.size ≤ s.size) :
    (s.write offset data).toBytes = overwrite s.toBytes offset data := by
  refine ext_byteOf ?_ fun i _ => ?_
  · rw [size_toBytes, size_write_of_le h, size_overwrite, size_toBytes, Nat.max_eq_left h]
  · rw [byteOf_toBytes, byteAt_write, byteOf_overwrite, byteOf_toBytes]

/-- Writes that fit the object are all done, and land in the order in which they are made. -/
theorem Replays.landed_eq {m₀ m : MemoryStore} {writes : List WriteRecord} {o : MemoryObject}
    (h : Replays m₀ writes m) (ho : m₀.object = some o)
    (hfits : ∀ w ∈ writes,
      PageStore.refusal? m₀.page o.data.size w.chunk.range w.chunk.data = none) :
    (∀ w ∈ writes, w.result = .ok ()) ∧ m.page = m₀.page ∧
      ∃ o', m.object = some o' ∧ o'.data.size = o.data.size ∧
        o'.data.toBytes = landed o.data.toBytes (writes.map WriteRecord.chunk) := by
  induction h with
  | start => exact ⟨nofun, rfl, o, ho, rfl, rfl⟩
  | @write writes m m' c result h hwrite ih =>
    obtain ⟨ihok, ihpage, o₁, ho₁, ihsize, ihbytes⟩ :=
      ih fun w hw => hfits w (List.mem_append_left _ hw)
    have hfit := hfits ⟨c, result⟩ (List.mem_append_right _ List.mem_cons_self)
    change m.write c.range c.data = (result, m') at hwrite
    rcases MemoryStore.write_cases hwrite with ⟨-, hne⟩ | ⟨o₂, ho₂, hinside, hdata, hok, rfl⟩
    · rw [← ihpage, ← ihsize] at hfit
      obtain ⟨_, _, hdone, -⟩ := MemoryStore.write_fits ho₁ hfit
      exact absurd (congrArg Prod.fst (hwrite.symm.trans hdone)) hne
    · obtain rfl : o₁ = o₂ := Option.some.inj (ho₁.symm.trans ho₂)
      have hend := c.range.first_add_length
      have hin : c.range.first + c.data.size ≤ o₁.data.size := by omega
      refine ⟨fun w hw => ?_, ihpage, _, rfl, ?_, ?_⟩
      · rcases List.mem_append.mp hw with hw | hw
        · exact ihok w hw
        · rw [List.mem_singleton.mp hw]
          exact hok
      · exact (SparseBytes.size_write_of_le hin).trans ihsize
      · show (o₁.data.write c.range.first c.data).toBytes = _
        rw [SparseBytes.toBytes_write hin, ihbytes, List.map_append]
        unfold landed
        rw [List.foldl_append]
        rfl

namespace Upload

variable {options : UploadOptions} {parallelism : Option Nat} {source : Source}
  {image b : ByteArray} {present : RangeSet} {resume : Bool} {p : Plan} {r : Reader}

/-- Over a store in memory no write is refused, and sessions that have written the same leave the
same bytes. -/
theorem contents_run {store : MemoryStore} {actions actions' : List SessionAction}
    {s s' : Session MemoryStore} (hsource : source.Holds image) (hsize : image.size < 2 ^ 64)
    (hpresent : present.Canonical) (hb : store.contents = some b) (hbsize : b.size = image.size)
    (hplan : plan options source (if resume then present else .empty) store = (.ok p, r))
    (hrun : (Session.start options (workers options parallelism) p r store).run actions = some s)
    (hrun' : (Session.start options (workers options parallelism) p r store).run actions' =
      some s') :
    (∀ w ∈ s.writes, w.result = .ok ()) ∧
      ((∀ c, c ∈ s'.arrived ↔ c ∈ s.arrived) → s'.store.contents = s.store.contents) := by
  obtain ⟨o, ho, rfl⟩ := Option.map_eq_some_iff.mp hb
  have hosize : o.data.size = image.size := o.data.size_toBytes.symm.trans hbsize
  have hall : ∀ {actions : List SessionAction} {s : Session MemoryStore},
      (Session.start options (workers options parallelism) p r store).run actions = some s →
      s.Orderly store.page image ∧ (∀ w ∈ s.writes, w.result = .ok ()) ∧
        s.store.contents = some (landed o.data.toBytes s.arrived) := by
    intro actions s hrun
    obtain ⟨hinvariant, hholds, hserves⟩ := served_run hsource hsize hpresent hplan hrun
    have horderly : s.Orderly store.page image := hinvariant.orderly hserves hholds
    obtain ⟨hok, -, o', ho', -, hbytes⟩ :=
      hinvariant.replays.landed_eq ho (hosize ▸ horderly.fits)
    have harrived : s.arrived = s.writes.map WriteRecord.chunk := by
      unfold Session.arrived
      rw [List.filter_eq_self.mpr fun w hw => by rw [hok w hw]; rfl]
    refine ⟨horderly, hok, ?_⟩
    unfold MemoryStore.contents
    rw [ho', harrived]
    exact congrArg some hbytes
  obtain ⟨horderly, hok, hcontents⟩ := hall hrun
  obtain ⟨-, -, hcontents'⟩ := hall hrun'
  refine ⟨hok, fun hsame => ?_⟩
  rw [hcontents, hcontents', horderly.unordered _ hbsize _ hsame]

end Upload
end ImageUpload
