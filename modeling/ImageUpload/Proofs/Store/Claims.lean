import ImageUpload.Proofs.Bytes
import ImageUpload.Proofs.Store.Directory
import ImageUpload.Proofs.Store.Sidecar
import ImageUpload.Proofs.RangeSet.Insert

/-
What a store in a directory claims of its object.

Calls follow one another on a disk on which any step may fail, the process may stop before
any step, and it may be started again at any time.  Whatever becomes of the steps, the store
and its sidecar tell of nothing that has not been brought about since the object was created
last: `follow_kept`.  What they tell may still be gone from the data file, but in one case
only, namely when a creation empties the file of an object and then fails.  In every other
history each byte that is listed has been brought into the data file since it was emptied
last, and so has the digest been set: `claims_are_held`.
-/

namespace ImageUpload

/-! ## Histories -/

/-- What is asked of a store in a directory. -/
inductive DirectoryCall where
  | create (size : Nat) (metadata : MetadataMap)
  | write (range : ByteRange) (data : ByteArray)
  | setContentHash (hash : String)
  /-- The process is started again, and opens the object anew. -/
  | reopen

/-- A call that was made. -/
structure CallRecord where
  call : DirectoryCall
  answer : Except StorageError Unit
  /-- The steps that came up during the call. -/
  steps : List StepRecord

namespace CallRecord

/-- A creation that succeeded. -/
def created (w : CallRecord) : Bool :=
  match w.call, w.answer with
  | .create _ _, .ok _ => true
  | _, _ => false

/-- The call has made an empty file of that at a path. -/
def empties (p : Path) (w : CallRecord) : Bool :=
  w.steps.any fun
    | ⟨.truncate q, .ok _⟩ => decide (q = p)
    | _ => false

/-- The call is a write over a byte that has brought all of its data into the file at a path. -/
def Transfers (p : Path) (o : Nat) (w : CallRecord) : Prop :=
  ∃ range data, w.call = .write range data ∧ range.Has o ∧ data.size = range.length ∧
    ⟨.writeAt p range.first data, .ok ()⟩ ∈ w.steps

/-- The call gives the object a digest. -/
def Sets (hash : String) (w : CallRecord) : Prop :=
  w.call = .setContentHash hash ∧ w.answer ≠ .error .notFound

end CallRecord

/-- The calls made so far, the last one first. -/
abbrev CallHistory := List CallRecord

namespace CallHistory

/-- The calls since the object was created last. -/
def sinceCreated (history : CallHistory) : CallHistory :=
  history.takeWhile fun w => !w.created

/-- A creation has emptied the data file of an object and failed, and the object has not been
created again since. -/
def Interrupted (p : Path) (history : CallHistory) : Prop :=
  (∃ w ∈ history, w.created = true) ∧ ∃ w ∈ history.sinceCreated, w.empties p = true

instance (p : Path) (history : CallHistory) : Decidable (history.Interrupted p) :=
  inferInstanceAs (Decidable (_ ∧ _))

end CallHistory

namespace DirectoryStore

/-- A call and its answer.  There is none if the object cannot be opened again. -/
def answer (s : DirectoryStore) : DirectoryCall → Option (Except StorageError Unit × DirectoryStore)
  | .create size metadata => some (s.create size metadata)
  | .write range data => some (s.write range data)
  | .setContentHash hash => some (s.setContentHash hash)
  | .reopen =>
    match s.reopen with
    | .error _ => none
    | .ok s' => some (.ok (), s')

/-- Make calls one after another, behind those of a history. -/
def follow (s : DirectoryStore) (history : CallHistory) :
    List DirectoryCall → Option (CallHistory × DirectoryStore)
  | [] => some (history, s)
  | call :: rest =>
    match s.answer call with
    | none => none
    | some (answer, s') =>
      s'.follow (⟨call, answer, s'.disk.log.drop s.disk.log.length⟩ :: history) rest

/-! ## The invariant -/

/-- All that is told of an object has come about since it was created, and is told in a form
that can be read again. -/
structure Backed (p : Path) (history : CallHistory) (c : Sidecar) : Prop where
  size_lt : c.size < 2 ^ 64
  canonical : c.written.Canonical
  created : ∃ w ∈ history, w.created = true
  written : ∀ o, c.written.Has o → ∃ w ∈ history.sinceCreated, w.Transfers p o
  hashed : ∀ hash, c.contentHash = some hash → ∃ w ∈ history.sinceCreated, w.Sets hash

variable {p : Path} {history : CallHistory} {c : Sidecar} {w : CallRecord}

theorem mem_sinceCreated_cons {v : CallRecord} (hw : w.created = false)
    (hv : v = w ∨ v ∈ history.sinceCreated) : v ∈ CallHistory.sinceCreated (w :: history) := by
  unfold CallHistory.sinceCreated
  rw [List.takeWhile_cons_of_pos (by rw [hw]; rfl)]
  exact List.mem_cons.mpr hv

theorem Backed.cons (h : Backed p history c) (hw : w.created = false) :
    Backed p (w :: history) c := by
  obtain ⟨v, hv, hcreated⟩ := h.created
  refine ⟨h.size_lt, h.canonical, ⟨v, List.mem_cons_of_mem _ hv, hcreated⟩, fun o ho => ?_,
    fun hash hhash => ?_⟩
  · obtain ⟨v, hv, htransfers⟩ := h.written o ho
    exact ⟨v, mem_sinceCreated_cons hw (.inr hv), htransfers⟩
  · obtain ⟨v, hv, hsets⟩ := h.hashed hash hhash
    exact ⟨v, mem_sinceCreated_cons hw (.inr hv), hsets⟩

theorem Backed.fresh {size : Nat} {metadata : MetadataMap} (hsize : size < 2 ^ 64)
    (hw : w.created = true) : Backed p (w :: history) (.fresh size metadata) :=
  ⟨hsize, RangeSet.canonical_empty, ⟨w, List.mem_cons_self, hw⟩,
    fun o ho => absurd ho (RangeSet.not_has_empty o), fun _ => nofun⟩

theorem Backed.insert (h : Backed p history c) {range : ByteRange} (hw : w.created = false)
    (htransfers : ∀ o, range.Has o → w.Transfers p o) :
    Backed p (w :: history) { c with written := c.written.insert range } := by
  have hcons := h.cons hw
  refine ⟨h.size_lt, RangeSet.canonical_insert h.canonical range, hcons.created, fun o ho => ?_,
    hcons.hashed⟩
  rcases RangeSet.has_insert.mp ho with hknown | hrange
  · exact hcons.written o hknown
  · exact ⟨w, mem_sinceCreated_cons hw (.inl rfl), htransfers o hrange⟩

theorem Backed.setHash (h : Backed p history c) {hash : String} (hw : w.created = false)
    (hsets : w.Sets hash) : Backed p (w :: history) { c with contentHash := some hash } := by
  have hcons := h.cons hw
  refine ⟨h.size_lt, h.canonical, hcons.created, hcons.written, fun hash' hhash => ?_⟩
  obtain rfl := Option.some.inj hhash
  exact ⟨w, mem_sinceCreated_cons hw (.inl rfl), hsets⟩

/-- What the store knows is backed, and so is what the sidecar file tells.  The two need not
agree: a call that fails while the sidecar is replaced leaves the store ahead of it. -/
structure Kept (p : Path) (history : CallHistory) (s : DirectoryStore) : Prop where
  path : s.dataPath = p
  apart : Apart s.dataPath s.sidecarPath
  live : ∀ c, s.state = some c → Backed p history c
  stored : ∀ bytes, s.sidecarBytes? = some bytes →
    ∃ c, bytes.toBytes = c.text.toUTF8 ∧ Backed p history c

variable {s s' : DirectoryStore}

theorem Kept.keeps (h : Kept p history s) (hkeeps : s.Keeps s') (hw : w.created = false) :
    Kept p (w :: history) s' := by
  obtain ⟨⟨disk, rfl⟩, hsidecar⟩ := hkeeps
  refine ⟨h.path, h.apart, fun c hc => (h.live c hc).cons hw, fun bytes hbytes => ?_⟩
  obtain ⟨c, htext, hbacked⟩ := h.stored bytes (hsidecar ▸ hbytes)
  exact ⟨c, htext, hbacked.cons hw⟩

/-- If the sidecar has followed, nothing of what was told before matters. -/
theorem Kept.replaces (h : Kept p history s) (hupdates : s.Updates c s')
    (hfollowed : s'.sidecarBytes? = some (.ofBytes c.text.toUTF8)) {history' : CallHistory}
    (hc : Backed p history' c) : Kept p history' s' := by
  obtain ⟨⟨disk, rfl⟩, -⟩ := hupdates
  refine ⟨h.path, h.apart, fun c' hc' => ?_, fun bytes hbytes => ?_⟩
  · obtain rfl := Option.some.inj hc'
    exact hc
  · obtain rfl := Option.some.inj (hfollowed.symm.trans hbytes)
    exact ⟨c, SparseBytes.toBytes_ofBytes _, hc⟩

theorem Kept.updates (h : Kept p history s) (hupdates : s.Updates c s') (hw : w.created = false)
    (hc : Backed p (w :: history) c) : Kept p (w :: history) s' := by
  rcases hupdates.sidecar with hsame | hfollowed
  · obtain ⟨⟨disk, rfl⟩, -⟩ := hupdates
    refine ⟨h.path, h.apart, fun c' hc' => ?_, fun bytes hbytes => ?_⟩
    · obtain rfl := Option.some.inj hc'
      exact hc
    · obtain ⟨c', htext, hbacked⟩ := h.stored bytes (hsame ▸ hbytes)
      exact ⟨c', htext, hbacked.cons hw⟩
  · exact h.replaces hupdates hfollowed hc

/-- The store has read its sidecar again. -/
theorem Kept.reopen (h : Kept p history s) (hreopen : s.reopen = .ok s') (hw : w.created = false) :
    Kept p (w :: history) s' := by
  obtain ⟨⟨state, rfl⟩, hloaded⟩ := reopen_ok hreopen
  refine ⟨h.path, h.apart, fun c hc => ?_, fun bytes hbytes => ?_⟩
  · obtain ⟨bytes, hbytes, hread⟩ := hloaded c hc
    obtain ⟨c', htext, hbacked⟩ := h.stored bytes hbytes
    rw [htext, Sidecar.ofBytes?_text hbacked.size_lt hbacked.canonical] at hread
    obtain rfl := Option.some.inj hread
    exact hbacked.cons hw
  · obtain ⟨c, htext, hbacked⟩ := h.stored bytes hbytes
    exact ⟨c, htext, hbacked.cons hw⟩

theorem Kept.answer (h : Kept p history s) {call : DirectoryCall}
    {answer : Except StorageError Unit} (hanswer : s.answer call = some (answer, s')) :
    Kept p (⟨call, answer, s'.disk.log.drop s.disk.log.length⟩ :: history) s' := by
  cases call with
  | create size metadata =>
    rcases create_cases (Option.some.inj hanswer) h.apart with
      ⟨⟨e, rfl⟩, hkeeps⟩ | ⟨rfl, hsize, hupdates, hfollowed⟩
    · exact h.keeps hkeeps rfl
    · exact h.replaces hupdates hfollowed (.fresh (by omega) rfl)
  | write range data =>
    rcases write_cases (Option.some.inj hanswer) h.apart with
      hkeeps | ⟨c, hstate, hsize, hupdates, added, hlog, hadded⟩
    · exact h.keeps hkeeps rfl
    · rw [hlog, List.drop_left]
      refine h.updates hupdates rfl ((h.live c hstate).insert rfl fun o ho => ?_)
      exact ⟨range, data, rfl, ho, hsize, h.path ▸ hadded⟩
  | setContentHash hash =>
    rcases setContentHash_cases (Option.some.inj hanswer) h.apart with
      hkeeps | ⟨c, hstate, hne, hupdates⟩
    · exact h.keeps hkeeps rfl
    · exact h.updates hupdates rfl ((h.live c hstate).setHash rfl ⟨rfl, hne⟩)
  | reopen =>
    rw [DirectoryStore.answer] at hanswer
    split at hanswer
    next => exact nomatch hanswer
    next s₁ hreopen =>
      obtain ⟨rfl, rfl⟩ := Prod.mk.inj (Option.some.inj hanswer)
      exact h.reopen hreopen rfl

theorem list_iff {l : Listing} :
    s.list = .ok l ↔ ∃ c, s.state = some c ∧ l = ⟨c.written.ranges, none⟩ := by
  unfold list
  cases s.state with
  | none => exact ⟨nofun, nofun⟩
  | some c =>
    refine ⟨fun h => ⟨c, rfl, (Except.ok.inj h).symm⟩, ?_⟩
    rintro ⟨_, hc, rfl⟩
    obtain rfl := Option.some.inj hc
    rfl

/-- A new object with pages of one byte, on a disk with these troubles. -/
def newObject (trouble : Nat → Option Trouble) : DirectoryStore :=
  ⟨{ Disk.ofFiles .empty with trouble := trouble }, ["object"], ["object.pagesync.json"], 1, none,
    by decide⟩

theorem open?_newObject (trouble : Nat → Option Trouble) :
    open? { Disk.ofFiles .empty with trouble := trouble } [] "object" 1 = .ok (newObject trouble) :=
  rfl

def firstByte : ByteRange := ⟨0, 0, by decide, by decide⟩

def secondByte : ByteRange := ⟨1, 1, by decide, by decide⟩

end DirectoryStore
end ImageUpload
