import ImageUpload.Proofs.RangeSet.InPlace
import ImageUpload.Proofs.Store.Alike

/-
The store in memory is a page object.

A page object, `PageObject`, is told by its history: it keeps the writes that it accepted, and
each of its bytes is that of the last of them to cover it.  After any calls the store shows the
object that these calls make, and the call that comes next is refused by the one exactly if it is
refused by the other, `shows_history`.  A write takes no sum that a word could not hold, and
neither cuts out of the data nor replaces in the written set what is not there, `write?_eq`.
-/

namespace ImageUpload

/-! ## In words -/

/-- `refusal?` in words.  Whether the range has a length that a word holds is asked only of ranges
that end in the object. -/
def PageStore.refusalInWords (page size : Nat) (range : ByteRange) (data : ByteArray) :
    Option (Option StorageError) :=
  if range.isAligned page = false then some (some (.unaligned range page))
  else if size ≤ range.last then some (some (.outOfBounds range size))
  else
    range.length?.map fun length =>
      if data.size ≠ length then
        some (.rejected (s!"payload of {data.size} bytes does not match range " ++ range.text))
      else none

/-- A write in words.  The bytes are copied to a cut out of the data of the object. -/
def MemoryStore.write? (s : MemoryStore) (range : ByteRange) (data : ByteArray) :
    Option (Except WriteFault Unit × MemoryStore) :=
  match s.object with
  | none => some (.error (.failed .notFound), s)
  | some o =>
    (PageStore.refusalInWords s.page o.data.size range data).bind fun refusal =>
      match refusal with
      | some e => some (.error (.failed e), s)
      | none =>
        (Word.add? range.first data.size).bind fun stop =>
          if stop ≤ o.data.size then
            (o.written.insert? range).map fun written =>
              (.ok (), { s with object := some { o with
                data := o.data.write range.first data
                written := written } })
          else none

namespace PageStore

variable {page size : Nat} {range : ByteRange} {data : ByteArray}

theorem refusalInWords_eq (hsize : size < 2 ^ 64) :
    refusalInWords page size range data = some (refusal? page size range data) := by
  unfold refusalInWords refusal?
  split
  next _ => rfl
  next _ =>
    split
    next _ => rfl
    next hinside =>
      rw [ByteRange.length?_eq (by omega)]
      rfl

/-- What fits in an object: whole pages, with a byte for each. -/
structure Fits (page size : Nat) (range : ByteRange) (data : ByteArray) : Prop where
  first : page ∣ range.first
  length : page ∣ range.length
  inside : range.last < size
  payload : data.size = range.length

instance : Decidable (Fits page size range data) :=
  decidable_of_iff (page ∣ range.first ∧ page ∣ range.length ∧ range.last < size ∧
      data.size = range.length)
    ⟨fun ⟨hfirst, hlength, hinside, hpayload⟩ => ⟨hfirst, hlength, hinside, hpayload⟩,
      fun ⟨hfirst, hlength, hinside, hpayload⟩ => ⟨hfirst, hlength, hinside, hpayload⟩⟩

theorem refusal?_eq_none_iff (hpage : 0 < page) (hsize : size < 2 ^ 64) :
    refusal? page size range data = none ↔ Fits page size range data := by
  have hend := range.first_add_length
  constructor
  · intro h
    obtain ⟨hinside, hpayload⟩ := fits_of_refusal? h
    obtain ⟨hfirst, hlast⟩ := onPages_of_refusal? h (by omega)
    exact ⟨hfirst, (Nat.dvd_add_right hfirst).mp (hend ▸ hlast), hinside, hpayload⟩
  · rintro ⟨hfirst, hlength, hinside, hpayload⟩
    have hlast : page ∣ range.last + 1 := hend ▸ Nat.dvd_add hfirst hlength
    have haligned : range.isAligned page = true := by
      unfold ByteRange.isAligned
      have hword : range.last + 1 < 2 ^ 64 := by omega
      rw [Nat.mod_eq_of_lt hword, Nat.mod_eq_zero_of_dvd hfirst, Nat.mod_eq_zero_of_dvd hlast,
        decide_eq_true hpage]
      rfl
    unfold refusal?
    rw [if_neg (by rw [haligned]; nofun), if_neg (by omega), if_neg (not_not.mpr hpayload)]

end PageStore

theorem MemoryStore.write?_eq {s : MemoryStore} (hsize : ∀ o, s.object = some o → o.data.size < 2 ^ 64)
    (range : ByteRange) (data : ByteArray) : s.write? range data = some (s.write range data) := by
  unfold write? write
  cases ho : s.object with
  | none => rfl
  | some o =>
    simp only [PageStore.refusalInWords_eq (hsize o ho), Option.bind_some]
    cases hrefusal : PageStore.refusal? s.page o.data.size range data with
    | some e => rfl
    | none =>
      obtain ⟨hinside, hpayload⟩ := PageStore.fits_of_refusal? hrefusal
      have hend := range.first_add_length
      have hlast := range.last_lt
      have hobject := hsize o ho
      simp only [Word.add?_eq (show range.first + data.size < 2 ^ 64 by omega), Option.bind_some,
        if_pos (show range.first + data.size ≤ o.data.size by omega), RangeSet.insert?_eq,
        Option.map_some]

/-! ## Page objects -/

/-- An object as its history tells it. -/
structure PageObject where
  size : Nat
  metadata : MetadataMap
  contentHash : Option String
  /-- The writes since the object was created, the last one first. -/
  writes : List (ByteRange × ByteArray)

namespace PageObject

/-- The byte at a place is that of the last write to cover it, and zero if there is none. -/
def byteAt (o : PageObject) (i : Nat) : UInt8 :=
  match o.writes.find? fun w => decide (w.1.Has i) with
  | some (range, data) => byteOf data (i - range.first)
  | none => 0

/-- What a call makes of the object, if it is not refused. -/
def turn? (page : Nat) (o : Option PageObject) :
    StorageCall → Option (Option PageObject)
  | .create size metadata => if page ∣ size then some (some ⟨size, metadata, none, []⟩) else none
  | .write range data =>
    o.bind fun o =>
      if PageStore.Fits page o.size range data then
        some (some { o with writes := (range, data) :: o.writes })
      else none
  | .setContentHash hash => o.map fun o => some { o with contentHash := some hash }
  | .listAll => o.map some
  | .properties => some o
  | .reopen => some o

theorem byteAt_of_not_covered {o : PageObject} {i : Nat} (h : ¬∃ w ∈ o.writes, w.1.Has i) :
    o.byteAt i = 0 := by
  have hnone : o.writes.find? (fun w => decide (w.1.Has i)) = none := by
    rw [List.find?_eq_none]
    exact fun w hw hi => h ⟨w, hw, of_decide_eq_true hi⟩
  unfold byteAt
  rw [hnone]

/-- The object after calls one after another.  Those that are refused leave it as it is. -/
def after (page : Nat) (calls : List StorageCall) : Option PageObject :=
  calls.foldl (fun o call => (turn? page o call).getD o) none

/-- A write puts its own bytes and leaves all others. -/
theorem byteAt_write (o : PageObject) (range : ByteRange) (data : ByteArray) (i : Nat) :
    byteAt { o with writes := (range, data) :: o.writes } i =
      if range.Has i then byteOf data (i - range.first) else o.byteAt i := by
  unfold byteAt
  by_cases hi : range.Has i
  · simp only [List.find?_cons, decide_eq_true hi, if_pos hi]
  · simp only [List.find?_cons, decide_eq_false hi, if_neg hi]

end PageObject

/-- The call was refused. -/
def StorageAnswer.refused : StorageAnswer → Bool
  | .done (.error _) | .wrote (.error _) | .found (.error _) | .listed (.error _) => true
  | _ => false

/-! ## The store shows the object -/

/-- What the store keeps of an object. -/
structure MemoryObject.Shows (m : MemoryObject) (page : Nat) (o : PageObject) : Prop where
  small : o.size < 2 ^ 64
  size : m.data.size = o.size
  metadata : m.metadata = o.metadata
  contentHash : m.contentHash = o.contentHash
  bytes : ∀ i, m.data.byteAt i = o.byteAt i
  paged : m.written.Paged page o.size
  written : ∀ i, m.written.Has i ↔ ∃ w ∈ o.writes, w.1.Has i

/-- The store and the history have the same object, or neither has one. -/
def MemoryStore.Shows (s : MemoryStore) (o : Option PageObject) : Prop :=
  Option.Rel (MemoryObject.Shows · s.page ·) s.object o

namespace MemoryObject

variable {m : MemoryObject} {page : Nat} {o : PageObject}

theorem shows_new {size : Nat} (page : Nat) (metadata : MetadataMap) (hsize : size < 2 ^ 64) :
    MemoryObject.Shows ⟨.zeros size, metadata, none, .empty⟩ page ⟨size, metadata, none, []⟩ where
  small := hsize
  size := rfl
  metadata := rfl
  contentHash := rfl
  bytes _ := rfl
  paged := RangeSet.paged_empty page size
  written i := ⟨fun hi => absurd hi (RangeSet.not_has_empty i), fun ⟨_, hw, _⟩ => nomatch hw⟩

theorem Shows.write (h : m.Shows page o) {range : ByteRange} {data : ByteArray}
    (hfits : PageStore.Fits page o.size range data) :
    MemoryObject.Shows
      { m with data := m.data.write range.first data, written := m.written.insert range }
      page { o with writes := (range, data) :: o.writes } := by
  obtain ⟨hfirst, hlength, hinside, hpayload⟩ := hfits
  have hend := range.first_add_length
  have hsize := h.size
  refine ⟨h.small, ?_, h.metadata, h.contentHash, fun i => ?_, ?_, fun i => ?_⟩
  · exact (SparseBytes.size_write_of_le (by omega)).trans hsize
  · rw [PageObject.byteAt_write, SparseBytes.byteAt_write]
    by_cases hi : range.Has i
    · have hlast := hi.2
      rw [if_pos hi, if_pos ⟨hi.1, by omega⟩]
    · rw [if_neg hi, if_neg fun hin => hi ⟨hin.1, by omega⟩]
      exact h.bytes i
  · exact h.paged.insert ⟨hfirst, hend ▸ Nat.dvd_add hfirst hlength⟩ hinside
  · rw [RangeSet.has_insert, h.written, List.exists_mem_cons_iff, or_comm]

theorem Shows.setContentHash (h : m.Shows page o) (hash : String) :
    MemoryObject.Shows { m with contentHash := some hash } page
      { o with contentHash := some hash } :=
  ⟨h.small, h.size, h.metadata, rfl, h.bytes, h.paged, h.written⟩

end MemoryObject

namespace MemoryStore

variable {s : MemoryStore} {o : Option PageObject}

theorem Shows.cases (h : s.Shows o) : (s.object = none ∧ o = none) ∨
    ∃ m p, s.object = some m ∧ o = some p ∧ m.Shows s.page p := by
  unfold Shows at h
  generalize hobject : s.object = object at h
  cases h with
  | none => exact .inl ⟨rfl, rfl⟩
  | some h => exact .inr ⟨_, _, rfl, rfl, h⟩

theorem shows_some {m : MemoryObject} {p : PageObject} (hm : s.object = some m)
    (h : m.Shows s.page p) : s.Shows (some p) := by
  unfold Shows
  rw [hm]
  exact .some h

theorem Shows.small (h : s.Shows o) {m : MemoryObject} (hm : s.object = some m) :
    m.data.size < 2 ^ 64 := by
  rcases h.cases with ⟨hnone, -⟩ | ⟨m', p, hsome, -, hp⟩
  · exact nomatch hnone.symm.trans hm
  · obtain rfl := Option.some.inj (hsome.symm.trans hm)
    exact hp.size ▸ hp.small

/-- There are no more written runs than pages, so the listing comes to its end. -/
theorem Shows.listAll (h : s.Shows o) : ∃ result, PageStore.listAll s = (result, s) ∧
    match o with
    | none => ∃ e, result = .error e
    | some _ => ∃ known, result = .ok known := by
  unfold PageStore.listAll
  have hbound : PageStore.listingBound s = s.listingBound := rfl
  have hlist : PageStore.list s none = (s.list none, s) := rfl
  rw [hbound]
  unfold listingBound
  rcases h.cases with ⟨hm, rfl⟩ | ⟨m, p, hm, rfl, hp⟩
  · simp only [hm]
    rw [PageStore.listFrom, hlist]
    unfold list
    rw [hm]
    exact ⟨_, rfl, _, rfl⟩
  · have hcount := hp.paged.length_le s.page_pos
    have hfew : p.size / s.page ≤ p.size := Nat.div_le_self ..
    have hsmall := hp.small
    simp only [hm, hp.size]
    rw [listFrom_eq hm (by omega) rfl (by omega) (by omega)]
    exact ⟨_, rfl, _, rfl⟩

/-- A write is accepted exactly if there is an object that it fits in. -/
theorem Shows.write (h : s.Shows o) (range : ByteRange) (data : ByteArray) :
    (∃ p s', o = some p ∧ PageStore.Fits s.page p.size range data ∧
      s.write range data = (.ok (), s') ∧ s'.page = s.page ∧
      s'.Shows (some { p with writes := (range, data) :: p.writes })) ∨
    ((¬∃ p, o = some p ∧ PageStore.Fits s.page p.size range data) ∧
      ∃ e, s.write range data = (.error e, s)) := by
  unfold MemoryStore.write
  rcases h.cases with ⟨hm, rfl⟩ | ⟨m, p, hm, rfl, hp⟩
  · rw [hm]
    refine .inr ⟨?_, _, rfl⟩
    rintro ⟨p, hp, -⟩
    exact absurd hp (Option.some_ne_none p).symm
  · have hiff : PageStore.refusal? s.page p.size range data = none ↔
        PageStore.Fits s.page p.size range data :=
      PageStore.refusal?_eq_none_iff s.page_pos hp.small
    simp only [hm, hp.size]
    cases hrefusal : PageStore.refusal? s.page p.size range data with
    | none =>
      have hfits := hiff.mp hrefusal
      exact .inl ⟨p, _, rfl, hfits, rfl, rfl, shows_some rfl (hp.write hfits)⟩
    | some e =>
      refine .inr ⟨?_, _, rfl⟩
      rintro ⟨_, ⟨⟩, hfits⟩
      exact absurd (hrefusal.symm.trans (hiff.mpr hfits)) (Option.some_ne_none e)

/-- One call: the store does what the history tells, or refuses and changes nothing. -/
theorem Shows.ask (h : s.Shows o) {call : StorageCall}
    (hcall : ∀ size metadata, call = .create size metadata → size < 2 ^ 64) :
    ∃ answer s', PageStore.ask .ok s call = (answer, s') ∧ s'.page = s.page ∧
      match PageObject.turn? s.page o call with
      | none => s' = s ∧ answer.refused = true
      | some o' => s'.Shows o' ∧ answer.refused = false := by
  cases call with
  | create size metadata =>
    simp only [PageStore.ask, PageStore.create, create, PageObject.turn?]
    by_cases hpages : s.page ∣ size
    · rw [if_pos hpages, if_neg (not_not.mpr (Nat.mod_eq_zero_of_dvd hpages))]
      exact ⟨_, _, rfl, rfl, shows_some rfl
        (MemoryObject.shows_new _ _ (hcall size metadata rfl)), rfl⟩
    · rw [if_neg hpages, if_pos fun hmod => hpages (Nat.dvd_of_mod_eq_zero hmod)]
      exact ⟨_, _, rfl, rfl, rfl, rfl⟩
  | write range data =>
    simp only [PageStore.ask, PageStore.write, PageObject.turn?]
    rcases h.write range data with ⟨p, s', rfl, hfits, hwrite, hpage, hshows⟩ | ⟨hno, e, hwrite⟩
    · rw [hwrite, Option.bind_some, if_pos hfits]
      exact ⟨_, _, rfl, hpage, hshows, rfl⟩
    · have hnone : (o.bind fun p => if PageStore.Fits s.page p.size range data then
          some (some { p with writes := (range, data) :: p.writes }) else none) = none := by
        rw [Option.bind_eq_none_iff]
        exact fun p hp => if_neg fun hfits => hno ⟨p, hp, hfits⟩
      rw [hwrite, hnone]
      exact ⟨_, _, rfl, rfl, rfl, rfl⟩
  | setContentHash hash =>
    simp only [PageStore.ask, PageStore.setContentHash, setContentHash]
    rcases h.cases with ⟨hm, rfl⟩ | ⟨m, p, hm, rfl, hp⟩
    · rw [hm]
      exact ⟨_, _, rfl, rfl, rfl, rfl⟩
    · rw [hm]
      exact ⟨_, _, rfl, rfl, shows_some rfl (hp.setContentHash hash), rfl⟩
  | listAll =>
    obtain ⟨result, hlist, hresult⟩ := h.listAll
    refine ⟨.listed result, s, by simp only [PageStore.ask, hlist], rfl, ?_⟩
    cases o with
    | none => exact ⟨rfl, by obtain ⟨e, rfl⟩ := hresult; rfl⟩
    | some p => exact ⟨h, by obtain ⟨known, rfl⟩ := hresult; rfl⟩
  | properties => exact ⟨_, _, rfl, rfl, h, rfl⟩
  | reopen => exact ⟨_, _, rfl, rfl, h, rfl⟩

theorem shows_empty (page listingLength : Nat) : (empty page listingLength).Shows none :=
  .none

theorem shows_askAll {calls rest : List StorageCall} (h : s.Shows (PageObject.after s.page calls))
    (hrest : ∀ size metadata, .create size metadata ∈ rest → size < 2 ^ 64) :
    (PageStore.askAll .ok s rest).2.page = s.page ∧
      (PageStore.askAll .ok s rest).2.Shows (PageObject.after s.page (calls ++ rest)) := by
  induction rest generalizing s calls with
  | nil => exact ⟨rfl, by rw [List.append_nil]; exact h⟩
  | cons call rest ih =>
    obtain ⟨answer, s', hask, hpage, hturn⟩ :=
      h.ask fun size metadata hcall => hrest size metadata (hcall ▸ List.mem_cons_self)
    have hshows : s'.Shows (PageObject.after s'.page (calls ++ [call])) := by
      have hafter : PageObject.after s'.page (calls ++ [call]) =
          (PageObject.turn? s.page (PageObject.after s.page calls) call).getD
            (PageObject.after s.page calls) := by
        unfold PageObject.after
        rw [hpage, List.foldl_append]
        rfl
      rw [hafter]
      split at hturn
      next hnone =>
        rw [hnone, hturn.1]
        exact h
      next hsome =>
        rw [hsome]
        exact hturn.1
    obtain ⟨hpage', hshows'⟩ :=
      ih hshows fun size metadata hmem => hrest size metadata (List.mem_cons_of_mem _ hmem)
    simp only [PageStore.askAll, hask]
    rw [List.append_assoc, hpage] at hshows'
    exact ⟨hpage'.trans hpage, hshows'⟩

/-- What can be seen of a store are the bytes that its history tells. -/
theorem Shows.contents (h : s.Shows o) {b : ByteArray} (hb : s.contents = some b) :
    ∃ p, o = some p ∧ b.size = p.size ∧
      ∀ i, byteOf b i = p.byteAt i ∧ (¬s.written.Has i → byteOf b i = 0) := by
  obtain ⟨m, hm, rfl⟩ := Option.map_eq_some_iff.mp hb
  rcases h.cases with ⟨hnone, -⟩ | ⟨m', p, hsome, rfl, hp⟩
  · exact nomatch hnone.symm.trans hm
  · obtain rfl := Option.some.inj (hsome.symm.trans hm)
    refine ⟨p, rfl, (SparseBytes.size_toBytes _).trans hp.size, fun i => ?_⟩
    rw [SparseBytes.byteOf_toBytes, hp.bytes, written_eq hm, hp.written]
    exact ⟨rfl, PageObject.byteAt_of_not_covered⟩

/-- After any calls the store shows the object of their history.  It accepts a write exactly if
there is an object and the write fits in it, and comes to its answer without a word that
overflows or a cut outside the data.  What it refuses is what the history refuses, and leaves
no trace. -/
theorem shows_history (page listingLength : Nat) {calls : List StorageCall}
    (hcalls : ∀ size metadata, .create size metadata ∈ calls → size < 2 ^ 64) :
    let s := (PageStore.askAll .ok (empty page listingLength) calls).2
    let o := PageObject.after (max 1 page) calls
    s.page = max 1 page ∧ s.Shows o ∧
      (∀ b, s.contents = some b → ∃ p, o = some p ∧ b.size = p.size ∧
        ∀ i, byteOf b i = p.byteAt i ∧ (¬s.written.Has i → byteOf b i = 0)) ∧
      (∀ range data, s.write? range data = some (s.write range data) ∧
        ((s.write range data).1 = .ok () ↔
          ∃ p, o = some p ∧ PageStore.Fits (max 1 page) p.size range data)) ∧
      ∀ call, (∀ size metadata, call = .create size metadata → size < 2 ^ 64) →
        ((PageStore.ask .ok s call).1.refused = true ↔
            PageObject.turn? (max 1 page) o call = none) ∧
          ((PageStore.ask .ok s call).1.refused = true → (PageStore.ask .ok s call).2 = s) := by
  intro s o
  have hall : s.page = max 1 page ∧ s.Shows (PageObject.after (max 1 page) ([] ++ calls)) :=
    shows_askAll (shows_empty page listingLength) hcalls
  obtain ⟨hpage, hshows⟩ := hall
  change s.Shows o at hshows
  refine ⟨hpage, hshows, fun b hb => hshows.contents hb, fun range data => ?_, fun call hcall => ?_⟩
  · refine ⟨write?_eq (fun m hm => hshows.small hm) range data, ?_⟩
    rw [← hpage]
    rcases hshows.write range data with ⟨p, s', hp, hfits, hwrite, -⟩ | ⟨hno, e, hwrite⟩
    · rw [hwrite]
      exact ⟨fun _ => ⟨p, hp, hfits⟩, fun _ => rfl⟩
    · rw [hwrite]
      exact ⟨nofun, fun hyes => absurd hyes hno⟩
  · obtain ⟨answer, s', hask, -, hturn⟩ := hshows.ask hcall
    rw [hask]
    rw [hpage] at hturn
    split at hturn
    next hnone =>
      rw [hturn.2]
      exact ⟨⟨fun _ => hnone, fun _ => rfl⟩, fun _ => hturn.1⟩
    next hsome =>
      rw [hturn.2]
      exact ⟨⟨nofun, fun hnone => nomatch hsome.symm.trans hnone⟩, nofun⟩

/-- Pages of two bytes.  Without an object nothing is written, three bytes are no whole pages, and
no page reaches past the end.  Of the object that is replaced nothing is left, and of two writes
that overlap the later one is seen. -/
theorem shows_history_replaced :
    let low : ByteRange := ⟨0, 3, by decide, by decide⟩
    let high : ByteRange := ⟨2, 5, by decide, by decide⟩
    let far : ByteRange := ⟨6, 2 ^ 64 - 1, by decide, by decide⟩
    let calls : List StorageCall := [.write low ⟨#[1, 2, 3, 4]⟩, .create 3 .empty,
      .create 6 .empty, .write high ⟨#[9, 9, 9, 9]⟩, .setContentHash "old", .create 8 .empty,
      .write high ⟨#[5, 6, 7, 8]⟩, .write low ⟨#[1, 2, 3, 4]⟩, .write far ⟨#[9, 9]⟩]
    let s := (PageStore.askAll .ok (empty 2 1) calls).2
    PageObject.after 2 calls =
        some ⟨8, .empty, none, [(low, ⟨#[1, 2, 3, 4]⟩), (high, ⟨#[5, 6, 7, 8]⟩)]⟩ ∧
      s.Shows (PageObject.after 2 calls) ∧ s.contents = some ⟨#[1, 2, 3, 4, 7, 8, 0, 0]⟩ ∧
      byteOf ⟨#[1, 2, 3, 4, 7, 8, 0, 0]⟩ 6 = 0 ∧ (s.write far ⟨#[9, 9]⟩).1 ≠ .ok () ∧
      (PageStore.ask .ok s (.write far ⟨#[9, 9]⟩)).2 = s := by
  intro low high far calls s
  have hcalls : ∀ size metadata, .create size metadata ∈ calls → size < 2 ^ 64 := by
    intro size metadata hmem
    simp only [calls, List.mem_cons, StorageCall.create.injEq, reduceCtorEq,
      List.not_mem_nil, false_or, or_false] at hmem
    omega
  obtain ⟨-, hshows, hcontents, hwrites, hrefused⟩ := shows_history 2 1 hcalls
  have hparts : (PageObject.after 2 calls).map
      (fun p => (p.size, p.metadata, p.contentHash, p.writes)) =
      some (8, .empty, none, [(low, ⟨#[1, 2, 3, 4]⟩), (high, ⟨#[5, 6, 7, 8]⟩)]) := by decide +kernel
  obtain ⟨⟨size, metadata, contentHash, writes⟩, hafter, hp⟩ := Option.map_eq_some_iff.mp hparts
  cases hp
  have hbytes : s.contents = some ⟨#[1, 2, 3, 4, 7, 8, 0, 0]⟩ := by decide +kernel
  have hno : ¬PageStore.Fits 2 8 far ⟨#[9, 9]⟩ := by decide +kernel
  refine ⟨hafter, hshows, hbytes, ?_, fun haccepted => ?_, ?_⟩
  · obtain ⟨p, -, -, hall⟩ := hcontents _ hbytes
    exact (hall 6).2 (by decide +kernel)
  · obtain ⟨p, hp, hfits⟩ := (hwrites far ⟨#[9, 9]⟩).2.mp haccepted
    obtain rfl := Option.some.inj (hp.symm.trans hafter)
    exact hno hfits
  · obtain ⟨hiff, hsame⟩ := hrefused (.write far ⟨#[9, 9]⟩) nofun
    refine hsame (hiff.mpr ?_)
    show PageObject.turn? 2 (PageObject.after 2 calls) _ = none
    rw [hafter]
    exact if_neg hno

end MemoryStore
end ImageUpload
