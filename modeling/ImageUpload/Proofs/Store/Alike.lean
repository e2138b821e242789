import ImageUpload.Proofs.Layout
import ImageUpload.Proofs.Store.Memory
import ImageUpload.Proofs.Store.Undisturbed

/-
Two stores that cannot be told apart.

While no step on its disk fails, a store in a directory answers every call as a store in memory
does, whenever it is given up and opened again in between: `answers_alike`.  What ties the two
together is `Alike`.  The store in a directory knows of its object what the store in memory holds
of it, and its files are those that an opening reads back.
-/

namespace ImageUpload

/-! ## Written sets -/

/-- What can be written of an object of this size in whole pages. -/
structure RangeSet.Paged (s : RangeSet) (page size : Nat) : Prop where
  canonical : s.Canonical
  onPages : ∀ r ∈ s.ranges, r.OnPages page
  inside : ∀ r ∈ s.ranges, r.last < size

namespace RangeSet

theorem paged_empty (page size : Nat) : empty.Paged page size :=
  ⟨canonical_empty, nofun, nofun⟩

theorem Paged.insert {s : RangeSet} {page size : Nat} (h : s.Paged page size) {r : ByteRange}
    (hpages : r.OnPages page) (hinside : r.last < size) : (s.insert r).Paged page size := by
  have hall : ∀ a ∈ s.ranges ++ [r], a.OnPages page ∧ a.last < size := by
    intro a ha
    rcases List.mem_append.mp ha with ha | ha
    · exact ⟨h.onPages a ha, h.inside a ha⟩
    · exact List.mem_singleton.mp ha ▸ ⟨hpages, hinside⟩
  have hends : ∀ a ∈ (s.insert r).ranges, (∃ b ∈ s.ranges ++ [r], b.first = a.first) ∧
      ∃ b ∈ s.ranges ++ [r], b.last = a.last := by
    rw [insert_eq_ofRanges h.canonical]
    exact fun a ha => ends_of_mem_ofRanges ha
  refine ⟨canonical_insert h.canonical r, fun a ha => ?_, fun a ha => ?_⟩
  · obtain ⟨⟨b, hb, hfirst⟩, ⟨c, hc, hlast⟩⟩ := hends a ha
    exact ⟨hfirst ▸ (hall b hb).1.1, hlast ▸ (hall c hc).1.2⟩
  · obtain ⟨-, ⟨c, hc, hlast⟩⟩ := hends a ha
    exact hlast ▸ (hall c hc).2

/-- Runs on whole pages, from `k` on, have a page each. -/
theorem add_length_mul_le {l : List ByteRange} {page size k : Nat} (hcanonical : Canonical ⟨l⟩)
    (hall : ∀ a ∈ l, a.OnPages page ∧ a.last < size ∧ k ≤ a.first) (hk : k ≤ size) :
    k + l.length * page ≤ size := by
  induction l generalizing k with
  | nil =>
    rw [List.length_nil]
    omega
  | cons a rest ih =>
    obtain ⟨hfar, hrest⟩ := List.pairwise_cons.mp hcanonical
    obtain ⟨⟨hfirst, hlast⟩, hinside, hle⟩ := hall a List.mem_cons_self
    have horder := a.first_le_last
    have hlong : page ≤ a.last + 1 - a.first :=
      Nat.le_of_dvd (by omega) (Nat.dvd_sub hlast hfirst)
    -- the runs behind the first one begin past its end
    have hbehind : ∀ b ∈ rest, b.OnPages page ∧ b.last < size ∧ a.last + 1 ≤ b.first := by
      intro b hb
      obtain ⟨hpages, hin, -⟩ := hall b (List.mem_cons_of_mem a hb)
      have hgap := hfar b hb
      exact ⟨hpages, hin, by omega⟩
    have hbound := ih hrest hbehind (by omega)
    rw [List.length_cons, Nat.succ_mul]
    omega

theorem Paged.length_le {s : RangeSet} {page size : Nat} (h : s.Paged page size)
    (hpage : 0 < page) : s.ranges.length ≤ size / page := by
  have hbound := add_length_mul_le h.canonical
    (fun a ha => ⟨h.onPages a ha, h.inside a ha, Nat.zero_le _⟩) (Nat.zero_le _)
  rw [Nat.zero_add] at hbound
  exact (Nat.le_div_iff_mul_le hpage).mpr hbound

end RangeSet

/-- A write that is not refused is made of whole pages, unless it ends with the last offset. -/
theorem PageStore.onPages_of_refusal? {page size : Nat} {range : ByteRange} {data : ByteArray}
    (h : refusal? page size range data = none) (hlast : range.last + 1 < 2 ^ 64) :
    range.OnPages page := by
  unfold refusal? at h
  split at h
  next => exact nomatch h
  next haligned =>
    have htrue := eq_true_of_ne_false haligned
    unfold ByteRange.isAligned at htrue
    rw [Nat.mod_eq_of_lt hlast] at htrue
    simp only [Bool.and_eq_true, decide_eq_true_eq] at htrue
    exact ⟨Nat.dvd_of_mod_eq_zero htrue.1.2, Nat.dvd_of_mod_eq_zero htrue.2⟩

/-! ## Calls -/

/-- What is asked of a store. -/
inductive StorageCall where
  | create (size : Nat) (metadata : MetadataMap)
  | write (range : ByteRange) (data : ByteArray)
  | setContentHash (hash : String)
  | properties
  | listAll
  /-- The store is given up and opened again. -/
  | reopen

inductive StorageAnswer where
  | done (result : Except StorageError Unit)
  | wrote (result : Except WriteFault Unit)
  | found (result : Except StorageError (Option ObjectProperties))
  | listed (result : Except StorageError RangeSet)
  deriving DecidableEq

namespace PageStore

variable {σ : Type} [PageStore σ] (again : σ → Except StorageError σ)

/-- The answer to a call, and the store after it.  `again` opens the store again, and a store that
cannot be opened stays as it was. -/
def ask (s : σ) : StorageCall → StorageAnswer × σ
  | .create size metadata =>
    let (result, s) := create s size metadata
    (.done result, s)
  | .write range data =>
    let (result, s) := write s range data
    (.wrote result, s)
  | .setContentHash hash =>
    let (result, s) := setContentHash s hash
    (.done result, s)
  | .properties => (.found (properties s), s)
  | .listAll =>
    let (result, s) := listAll s
    (.listed result, s)
  | .reopen =>
    match again s with
    | .error e => (.done (.error e), s)
    | .ok s => (.done (.ok ()), s)

/-- The answers to calls one after another, and the store after them. -/
def askAll (s : σ) : List StorageCall → List StorageAnswer × σ
  | [] => ([], s)
  | call :: rest =>
    let (answer, s) := ask again s call
    let (answers, s) := askAll s rest
    (answer :: answers, s)

theorem askAll_append (s : σ) (a b : List StorageCall) :
    askAll again s (a ++ b) =
      ((askAll again s a).1 ++ (askAll again (askAll again s a).2 b).1,
        (askAll again (askAll again s a).2 b).2) := by
  induction a generalizing s with
  | nil => rfl
  | cons call rest ih => simp only [List.cons_append, askAll, ih]

end PageStore

namespace DirectoryStore

variable {d d' : DirectoryStore}

theorem listAll_eq (d : DirectoryStore) : PageStore.listAll d =
    (d.list.map fun l => l.ranges.foldl RangeSet.insert .empty, d) := by
  have hlist : PageStore.list d none = (d.list, d) := rfl
  show PageStore.listFrom 1 none .empty d = _
  rw [PageStore.listFrom, hlist]
  unfold list
  cases d.state with
  | none => rfl
  | some c => rfl

theorem write_eq (d : DirectoryStore) (range : ByteRange) (data : ByteArray) :
    PageStore.write d range data =
      ((d.write range data).1.mapError .failed, (d.write range data).2) := by
  simp only [PageStore.write]
  split
  next e s hwrite =>
    rw [hwrite]
    rfl
  next u s hwrite =>
    rw [hwrite]
    rfl

/-- No call takes anything off the record of the disk. -/
theorem ask_log {call : StorageCall} {answer : StorageAnswer}
    (h : PageStore.ask reopen d call = (answer, d')) : d.disk.log <+: d'.disk.log := by
  cases call with
  | create size metadata =>
    obtain ⟨-, rfl⟩ := Prod.mk.inj h
    exact create_log rfl
  | write range data =>
    simp only [PageStore.ask, write_eq] at h
    obtain ⟨-, rfl⟩ := Prod.mk.inj h
    exact write_log rfl
  | setContentHash hash =>
    obtain ⟨-, rfl⟩ := Prod.mk.inj h
    exact setContentHash_log rfl
  | properties =>
    obtain ⟨-, rfl⟩ := Prod.mk.inj h
    exact List.prefix_rfl
  | listAll =>
    simp only [PageStore.ask, listAll_eq] at h
    obtain ⟨-, rfl⟩ := Prod.mk.inj h
    exact List.prefix_rfl
  | reopen =>
    simp only [PageStore.ask] at h
    split at h
    next e _ =>
      obtain ⟨-, rfl⟩ := Prod.mk.inj h
      exact List.prefix_rfl
    next s₁ hreopen =>
      obtain ⟨-, rfl⟩ := Prod.mk.inj h
      obtain ⟨⟨state, rfl⟩, -⟩ := reopen_ok hreopen
      exact List.prefix_rfl

theorem askAll_log (d : DirectoryStore) (calls : List StorageCall) :
    d.disk.log <+: (PageStore.askAll reopen d calls).2.disk.log := by
  induction calls generalizing d with
  | nil => exact List.prefix_rfl
  | cons call rest ih => exact (ask_log rfl).trans (ih (PageStore.ask reopen d call).2)

end DirectoryStore

/-! ## What ties the stores together -/

/-- What a store in a directory would know of the object. -/
def MemoryObject.sidecar (o : MemoryObject) : Sidecar :=
  ⟨o.data.size, o.metadata, o.contentHash, o.written⟩

/-- The object of the store in memory, as the disk of the store in a directory holds it. -/
structure Held (d : DirectoryStore) (o : MemoryObject) : Prop where
  small : o.data.size < 2 ^ 63
  paged : o.written.Paged d.page o.data.size
  stored : DirectoryStore.Stored d.disk.files d.dataPath d.sidecarPath o.sidecar o.data

/-- The two stores hold the same object, or neither holds one. -/
structure Alike (d : DirectoryStore) (m : MemoryStore) : Prop where
  page : d.page = m.page
  running : d.disk.stopped = false
  distinct : DirectoryStore.Distinct d.dataPath d.sidecarPath
  state : d.state = m.object.map MemoryObject.sidecar
  loaded : DirectoryStore.load d.disk.files d.dataPath d.sidecarPath = .ok d.state
  held : ∀ o, m.object = some o → Held d o

namespace Alike

variable {d d' : DirectoryStore} {m : MemoryStore} {o : MemoryObject}

open DirectoryStore (reopen Turns)

theorem of_new {disk : Disk} {directory : Path} {name : String} {page : Nat}
    (hopen : DirectoryStore.open? disk directory name page = .ok d) (hnone : d.state = none)
    (hrunning : disk.stopped = false) (listingLength : Nat) :
    Alike d (.empty page listingLength) := by
  have hdistinct := DirectoryStore.open?_distinct hopen
  obtain ⟨hdisk, -, -, hload⟩ := DirectoryStore.open?_ok hopen
  have hpage : d.page = max 1 page := by
    unfold DirectoryStore.open? at hopen
    dsimp only at hopen
    split at hopen
    next => exact nomatch hopen
    next =>
      rw [← Except.ok.inj hopen]
  exact ⟨hpage, hdisk ▸ hrunning, hdistinct, hnone, hdisk ▸ hload, nofun⟩

/-- A store whose files have followed has turned to the object of the other. -/
theorem turns (h : Alike d m) (hturns : d.Turns d' o.sidecar o.data) (hsmall : o.data.size < 2 ^ 63)
    (hpaged : o.written.Paged d.page o.data.size) : Alike d' { m with object := some o } := by
  obtain ⟨⟨disk, rfl⟩, hrunning, hstored⟩ := hturns
  have hloaded := DirectoryStore.load_of_stored hstored (Nat.lt_trans hsmall (by decide))
    hpaged.canonical
  refine ⟨h.page, hrunning, h.distinct, rfl, hloaded, ?_⟩
  rintro _ ⟨⟩
  exact ⟨hsmall, hpaged, hstored⟩

theorem reopen_eq (h : Alike d m) :
    d.reopen = .ok { d with disk := d.disk.restart, state := d.state } := by
  unfold DirectoryStore.reopen
  rw [h.loaded]

theorem contents (h : Alike d m) {b : ByteArray} (hb : m.contents = some b) :
    d.contents = some b := by
  obtain ⟨o, ho, rfl⟩ := Option.map_eq_some_iff.mp hb
  exact DirectoryStore.contents_of_stored (h.held o ho).stored

/-! ## Calls -/

theorem properties (h : Alike d m) : d.properties = m.properties := by
  unfold DirectoryStore.properties MemoryStore.properties
  rw [h.state, Option.map_map]
  rfl

theorem listAll (h : Alike d m) :
    PageStore.listAll m = ((PageStore.listAll d).1, m) := by
  rw [DirectoryStore.listAll_eq]
  unfold DirectoryStore.list
  rw [h.state]
  cases ho : m.object with
  | none =>
    have hbound : PageStore.listingBound m = 1 := by
      show m.listingBound = 1
      unfold MemoryStore.listingBound
      rw [ho]
    have hlist : PageStore.list m none = (.error .notFound, m) := by
      show (m.list none, m) = _
      unfold MemoryStore.list
      rw [ho]
    unfold PageStore.listAll
    rw [hbound, PageStore.listFrom, hlist]
    rfl
  | some o =>
    obtain ⟨hsmall, hpaged, -⟩ := h.held o ho
    have hcount := hpaged.length_le (h.page ▸ m.page_pos)
    have hfew : o.data.size / d.page ≤ o.data.size := Nat.div_le_self ..
    have hbound : PageStore.listingBound m = o.data.size / d.page + 2 := by
      show m.listingBound = _
      unfold MemoryStore.listingBound
      rw [ho, h.page]
    unfold PageStore.listAll
    -- there are no more runs than pages, so the listing comes to its end within the bound
    rw [hbound, MemoryStore.listFrom_eq ho (by omega) rfl (by omega) (by omega), List.drop_zero]
    rfl

theorem create (h : Alike d m) {size : Nat} {metadata : MetadataMap}
    {answer : Except StorageError Unit} (hcreate : d.create size metadata = (answer, d'))
    (hu : d.disk.Undisturbed d'.disk) :
    ∃ m', m.create size metadata = (answer, m') ∧ Alike d' m' := by
  unfold MemoryStore.create
  by_cases hsize : size % d.page = 0
  · obtain ⟨rfl, hsmall, hturns⟩ :=
      DirectoryStore.create_undisturbed h.distinct h.running hcreate hu hsize
    rw [if_neg (not_not.mpr (h.page ▸ hsize))]
    exact ⟨_, rfl, h.turns (o := ⟨.zeros size, metadata, none, .empty⟩) hturns hsmall
      (RangeSet.paged_empty _ _)⟩
  · have hsize' : size % m.page ≠ 0 := h.page ▸ hsize
    unfold DirectoryStore.create at hcreate
    rw [if_pos hsize, h.page] at hcreate
    obtain ⟨rfl, rfl⟩ := Prod.mk.inj hcreate
    rw [if_pos hsize']
    exact ⟨m, rfl, h⟩

theorem write (h : Alike d m) {range : ByteRange} {data : ByteArray}
    {answer : Except StorageError Unit} (hwrite : d.write range data = (answer, d'))
    (hu : d.disk.Undisturbed d'.disk) :
    ∃ m', m.write range data = (answer.mapError .failed, m') ∧ Alike d' m' := by
  unfold MemoryStore.write
  cases ho : m.object with
  | none =>
    have hstate : d.state = none := h.state.trans (by rw [ho]; rfl)
    unfold DirectoryStore.write at hwrite
    rw [hstate] at hwrite
    obtain ⟨rfl, rfl⟩ := Prod.mk.inj hwrite
    exact ⟨m, rfl, h⟩
  | some o =>
    have hstate : d.state = some o.sidecar := h.state.trans (by rw [ho]; rfl)
    obtain ⟨hsmall, hpaged, hstored⟩ := h.held o ho
    dsimp only
    cases hrefusal : PageStore.refusal? m.page o.data.size range data with
    | some e =>
      have hrefused : PageStore.refusal? d.page o.sidecar.size range data = some e :=
        h.page ▸ hrefusal
      unfold DirectoryStore.write at hwrite
      rw [hstate] at hwrite
      simp only [hrefused] at hwrite
      obtain ⟨rfl, rfl⟩ := Prod.mk.inj hwrite
      exact ⟨m, rfl, h⟩
    | none =>
      have hfits : PageStore.refusal? d.page o.sidecar.size range data = none := h.page ▸ hrefusal
      obtain ⟨rfl, hturns⟩ := DirectoryStore.write_undisturbed h.distinct h.running hwrite hu
        hstate hstored hfits
      obtain ⟨hinside, hdata⟩ := PageStore.fits_of_refusal? hrefusal
      have hend := range.first_add_length
      have hsize : (o.data.write range.first data).size = o.data.size :=
        SparseBytes.size_write_of_le (by omega)
      -- sizes are below 2 ^ 63, so the end of the range does not wrap and its pages are whole
      have hpages := PageStore.onPages_of_refusal? hfits (by omega)
      refine ⟨_, rfl, h.turns (o := { o with
        data := o.data.write range.first data, written := o.written.insert range }) ?_ ?_ ?_⟩
      · have hsidecar : (MemoryObject.sidecar { o with
            data := o.data.write range.first data, written := o.written.insert range }) =
            { o.sidecar with written := o.sidecar.written.insert range } := by
          simp only [MemoryObject.sidecar, hsize]
        rw [hsidecar]
        exact hturns
      · exact hsize ▸ hsmall
      · exact hsize ▸ hpaged.insert hpages hinside

theorem setContentHash (h : Alike d m) {hash : String} {answer : Except StorageError Unit}
    (hset : d.setContentHash hash = (answer, d')) (hu : d.disk.Undisturbed d'.disk) :
    ∃ m', m.setContentHash hash = (answer, m') ∧ Alike d' m' := by
  unfold MemoryStore.setContentHash
  unfold DirectoryStore.setContentHash at hset
  rw [h.state] at hset
  cases ho : m.object with
  | none =>
    rw [ho] at hset
    obtain ⟨rfl, rfl⟩ := Prod.mk.inj hset
    exact ⟨m, rfl, h⟩
  | some o =>
    rw [ho] at hset
    obtain ⟨hsmall, hpaged, hstored⟩ := h.held o ho
    obtain ⟨rfl, hturns⟩ := DirectoryStore.update_undisturbed h.distinct h.running hset hu
      hstored.dataLeads hstored.data
    exact ⟨_, rfl, h.turns (o := { o with contentHash := some hash }) hturns hsmall hpaged⟩

/-- One call: both stores answer the same, and nothing that ties them together is lost. -/
theorem ask (h : Alike d m) {call : StorageCall} {answer : StorageAnswer}
    (hask : PageStore.ask reopen d call = (answer, d')) (hu : d.disk.Undisturbed d'.disk) :
    ∃ m', PageStore.ask .ok m call = (answer, m') ∧ Alike d' m' := by
  cases call with
  | create size metadata =>
    obtain ⟨rfl, rfl⟩ := Prod.mk.inj hask
    obtain ⟨m', hm', halike⟩ := h.create rfl hu
    exact ⟨m', by simp only [PageStore.ask, PageStore.create, hm'], halike⟩
  | write range data =>
    rcases hwrite : d.write range data with ⟨result, s⟩
    simp only [PageStore.ask, DirectoryStore.write_eq, hwrite] at hask
    obtain ⟨rfl, rfl⟩ := Prod.mk.inj hask
    obtain ⟨m', hm', halike⟩ := h.write hwrite hu
    exact ⟨m', by simp only [PageStore.ask, PageStore.write, hm'], halike⟩
  | setContentHash hash =>
    obtain ⟨rfl, rfl⟩ := Prod.mk.inj hask
    obtain ⟨m', hm', halike⟩ := h.setContentHash rfl hu
    exact ⟨m', by simp only [PageStore.ask, PageStore.setContentHash, hm'], halike⟩
  | properties =>
    obtain ⟨rfl, rfl⟩ := Prod.mk.inj hask
    exact ⟨m, by simp only [PageStore.ask, PageStore.properties, h.properties], h⟩
  | listAll =>
    simp only [PageStore.ask, DirectoryStore.listAll_eq] at hask
    obtain ⟨rfl, rfl⟩ := Prod.mk.inj hask
    exact ⟨m, by simp only [PageStore.ask, h.listAll, DirectoryStore.listAll_eq], h⟩
  | reopen =>
    simp only [PageStore.ask, h.reopen_eq] at hask
    obtain ⟨rfl, rfl⟩ := Prod.mk.inj hask
    refine ⟨m, rfl, h.page, rfl, h.distinct, h.state, h.loaded, fun o ho => ?_⟩
    obtain ⟨hsmall, hpaged, hstored⟩ := h.held o ho
    exact ⟨hsmall, hpaged, hstored⟩

theorem askAll (h : Alike d m) {calls : List StorageCall}
    (hu : d.disk.Undisturbed (PageStore.askAll reopen d calls).2.disk) :
    (PageStore.askAll reopen d calls).1 = (PageStore.askAll .ok m calls).1 ∧
      Alike (PageStore.askAll reopen d calls).2 (PageStore.askAll .ok m calls).2 := by
  induction calls generalizing d m with
  | nil => exact ⟨rfl, h⟩
  | cons call rest ih =>
    obtain ⟨hfirst, hrest⟩ :=
      hu.split (DirectoryStore.ask_log rfl) (DirectoryStore.askAll_log _ rest)
    obtain ⟨m', hm', halike⟩ := h.ask rfl hfirst
    obtain ⟨hanswers, halike'⟩ := ih halike hrest
    simp only [PageStore.askAll, hm']
    exact ⟨congrArg (List.cons _) hanswers, halike'⟩

end Alike

open DirectoryStore (reopen open?)

/-- Two new stores answer all calls alike, and as soon as there is an object, the data file is what
the store in memory holds, after every single call.  It makes no difference when the store in the
directory is opened again. -/
theorem answers_alike {disk : Disk} {directory : Path} {name : String} {page : Nat}
    {d : DirectoryStore} (hopen : open? disk directory name page = .ok d) (hnew : d.state = none)
    (hrunning : disk.stopped = false) (listingLength : Nat) (calls : List StorageCall)
    (hu : disk.Undisturbed (PageStore.askAll reopen d calls).2.disk) :
    (PageStore.askAll reopen d calls).1 =
        (PageStore.askAll .ok (MemoryStore.empty page listingLength) calls).1 ∧
      ∀ before, before <+: calls → ∀ b,
        (PageStore.askAll .ok (MemoryStore.empty page listingLength) before).2.contents = some b →
          (PageStore.askAll reopen d before).2.contents = some b := by
  have halike := Alike.of_new hopen hnew hrunning listingLength
  obtain ⟨rfl, -⟩ := DirectoryStore.open?_ok hopen
  refine ⟨(halike.askAll hu).1, ?_⟩
  rintro before ⟨after, rfl⟩ b hb
  rw [PageStore.askAll_append] at hu
  obtain ⟨hbefore, -⟩ := hu.split (DirectoryStore.askAll_log d before)
    (DirectoryStore.askAll_log _ after)
  exact (halike.askAll hbefore).2.contents hb

/-- Pages of two bytes.  A size and a write that do not fit them are refused on either side of a
restart, and the write between them is listed and found. -/
theorem answers_alike_reopened :
    let first : ByteRange := ⟨0, 0, by decide, by decide⟩
    let last : ByteRange := ⟨2, 3, by decide, by decide⟩
    let calls : List StorageCall := [.create 3 .empty, .create 4 .empty, .write last ⟨#[7, 9]⟩,
      .reopen, .write first ⟨#[1]⟩, .listAll, .properties]
    ∃ d, open? (.ofFiles .empty) [] "object" 2 = .ok d ∧
      (PageStore.askAll reopen d calls).1 =
        [.done (.error (.rejected "object size 3 is not a multiple of 2")), .done (.ok ()),
          .wrote (.ok ()), .done (.ok ()), .wrote (.error (.failed (.unaligned first 2))),
          .listed (.ok ⟨[last]⟩), .found (.ok (some ⟨4, .empty, none⟩))] ∧
      (PageStore.askAll reopen d calls).2.contents = some ⟨#[0, 0, 7, 9]⟩ := by
  intro first last calls
  have hopen : open? (.ofFiles .empty) [] "object" 2 = .ok
      ⟨.ofFiles .empty, ["object"], ["object.pagesync.json"], 2, none, by decide⟩ := rfl
  have hlog : ∀ w ∈ (PageStore.askAll reopen (DirectoryStore.mk (.ofFiles .empty) ["object"]
      ["object.pagesync.json"] 2 none (by decide)) calls).2.disk.log, w.result = .ok () := by
    decide +kernel
  obtain ⟨hanswers, hcontents⟩ :=
    answers_alike hopen rfl rfl 1 calls (Disk.undisturbed_of_new rfl hlog)
  refine ⟨_, hopen, hanswers.trans ?_, hcontents calls List.prefix_rfl _ ?_⟩
  · decide +kernel
  · decide +kernel

end ImageUpload
