import ImageUpload.Proofs.Metadata
import ImageUpload.Proofs.Store.Listing
import ImageUpload.Session.Sync

/-
Where a session starts.

An object is resumed exactly if it is an unfinished one of the same image and its listing comes to
its end, and what was listed is what the session leaves out.  In every other case that finds an
object nothing but a listing has been asked of the store: `prepare_decides`.  An object that was
just made in memory is resumed with nothing to leave out, `prepare_again`.
-/

namespace ImageUpload

namespace ImageMetadata

/-- The two differ in the name of the file at most. -/
def SameImage (remote here : ImageMetadata) : Prop :=
  remote.size = here.size ∧ remote.contentHash = here.contentHash ∧
    remote.lastModified = here.lastModified

instance (remote here : ImageMetadata) : Decidable (remote.SameImage here) :=
  inferInstanceAs (Decidable (_ ∧ _))

/-- The list tells the fields that differ, each of them once and in this order. -/
structure Differences (remote here : ImageMetadata) (l : List MetadataMismatch) : Prop where
  inOrder : l.Sublist [.size remote.size here.size,
    .contentHash remote.contentHash here.contentHash,
    .lastModified remote.lastModified here.lastModified]
  size : .size remote.size here.size ∈ l ↔ remote.size ≠ here.size
  contentHash : .contentHash remote.contentHash here.contentHash ∈ l ↔
    remote.contentHash ≠ here.contentHash
  lastModified : .lastModified remote.lastModified here.lastModified ∈ l ↔
    remote.lastModified ≠ here.lastModified

theorem differences_compare (remote here : ImageMetadata) :
    remote.Differences here (remote.compare here) := by
  have hpart : ∀ {p : Prop} [Decidable p] (a : MetadataMismatch),
      (if p then [] else [a]).Sublist [a] := by
    intro p _ a
    split
    next => exact List.nil_sublist _
    next => exact List.Sublist.refl _
  constructor
  · exact ((hpart _).append (hpart _)).append (hpart _)
  all_goals
    by_cases hsize : remote.size = here.size <;>
      by_cases hhash : remote.contentHash = here.contentHash <;>
        by_cases htime : remote.lastModified = here.lastModified <;>
          simp [compare, hsize, hhash, htime]

theorem ofEntries_toEntries (m : ImageMetadata) : ofEntries m.toEntries = .ok (some m) := by
  have hletters := MetadataMap.get?_of_mem m.mem_toEntries
  simp only [ofEntries, hletters, Base64.decode?_encode, ofBytes?_json]

end ImageMetadata

/-- The object is not complete, and it is recorded to be of the image. -/
def ObjectProperties.Unfinished (found : ObjectProperties) (here : ImageMetadata) : Prop :=
  found.contentHash = none ∧
    ∃ remote, ImageMetadata.ofEntries found.metadata = .ok (some remote) ∧ remote.SameImage here

namespace Sync

variable {σ : Type} [PageStore σ] {here : ImageMetadata} {found : ObjectProperties}

/-! ## An object that is found -/

section

variable {s : σ}

theorem resumeFrom_complete (h : found.contentHash ≠ none) :
    resumeFrom here found s = (.error .alreadyUploaded, s) :=
  if_pos (Option.isSome_iff_ne_none.mpr h)

theorem resumeFrom_of_none (h : found.contentHash = none) :
    resumeFrom here found s =
      match ImageMetadata.ofEntries found.metadata with
      | .error f => (.error (.storage f.toError), s)
      | .ok none => (.error .missingMetadata, s)
      | .ok (some remote) =>
        if remote.compare here ≠ [] then (.error (.mismatch (remote.compare here)), s)
        else
          match PageStore.listAll s with
          | (.error e, s) => (.error (.storage e), s)
          | (.ok present, s) => (.ok (.resume present), s) := by
  unfold resumeFrom
  rw [h]
  rfl

end

/-- The listing decides last, when nothing else is against it. -/
theorem resumeFrom_unfinished {s : σ} (h : found.Unfinished here) :
    resumeFrom here found s =
      match PageStore.listAll s with
      | (.error e, s) => (.error (.storage e), s)
      | (.ok present, s) => (.ok (.resume present), s) := by
  obtain ⟨hnone, remote, hdecoded, hsame⟩ := h
  rw [resumeFrom_of_none hnone, hdecoded]
  exact if_neg (not_not.mpr (ImageMetadata.compare_eq_nil.mpr hsame))

/-- All other objects are left alone. -/
theorem resumeFrom_of_not_unfinished {s : σ} (h : ¬found.Unfinished here) :
    ∃ e, resumeFrom here found s = (.error e, s) := by
  by_cases hnone : found.contentHash = none
  · rw [resumeFrom_of_none hnone]
    split
    next => exact ⟨_, rfl⟩
    next => exact ⟨_, rfl⟩
    next remote hdecoded =>
      refine ⟨_, if_pos fun hsame => h ⟨hnone, remote, hdecoded, ?_⟩⟩
      exact ImageMetadata.compare_eq_nil.mp hsame
  · exact ⟨_, resumeFrom_complete hnone⟩

/-! ## Preparing -/

theorem prepare_of_found {s : σ} (h : PageStore.properties s = .ok (some found)) :
    prepare false here s = resumeFrom here found s := by
  unfold prepare
  rw [if_neg Bool.false_ne_true, h]

theorem createFor_cases (here : ImageMetadata) (s : σ) :
    (∃ e s', createFor here s = (.error e, s')) ∨ ∃ s', createFor here s = (.ok .fresh, s') ∧
      PageStore.create s here.size here.toEntries = (.ok (), s') := by
  unfold createFor
  split
  next => exact .inl ⟨_, _, rfl⟩
  next s' hcreate => exact .inr ⟨s', rfl, hcreate⟩

/-- Whatever is known of a store, its object is resumed or left alone, or a new one is made. -/
theorem prepare_cases (overwrite : Bool) (here : ImageMetadata) (s : σ) :
    (overwrite = false ∧ ∃ found, PageStore.properties s = .ok (some found) ∧
      prepare overwrite here s = resumeFrom here found s) ∨
    (∃ e, prepare overwrite here s = (.error e, s)) ∨
    prepare overwrite here s = createFor here s := by
  cases overwrite with
  | true => exact .inr (.inr (if_pos rfl))
  | false =>
    unfold prepare
    rw [if_neg Bool.false_ne_true]
    split
    next e _ => exact .inr (.inl ⟨_, rfl⟩)
    next => exact .inr (.inr rfl)
    next found hfound => exact .inl ⟨rfl, found, hfound, rfl⟩

/-- What was listed has been told of by the parts of a listing, as far as it goes. -/
theorem listAll_ok_iff {s s' : σ} (hbound : PageStore.Bounded s) {present : RangeSet} :
    PageStore.listAll s = (.ok present, s') ↔ ∃ parts, PageStore.Lists s none parts s' ∧
      present.Canonical ∧ ∀ i, present.Has i ↔ ∃ l ∈ parts, ∃ r ∈ l.ranges, r.Has i := by
  have hhas : ∀ (parts : List Listing) i,
      ((parts.flatMap Listing.ranges).foldl RangeSet.insert .empty).Has i ↔
        ∃ l ∈ parts, ∃ r ∈ l.ranges, r.Has i := by
    intro parts i
    rw [RangeSet.has_foldl_insert, or_iff_right (RangeSet.not_has_empty i)]
    simp only [List.mem_flatMap]
    exact ⟨fun ⟨r, ⟨l, hl, hr⟩, hi⟩ => ⟨l, hl, r, hr, hi⟩,
      fun ⟨l, hl, r, hr, hi⟩ => ⟨r, ⟨l, hl, hr⟩, hi⟩⟩
  unfold PageStore.listAll
  rw [PageStore.listFrom_ok_iff]
  constructor
  · rintro ⟨parts, hlists, -, rfl⟩
    exact ⟨parts, hlists, RangeSet.canonical_foldl_insert RangeSet.canonical_empty, hhas parts⟩
  · rintro ⟨parts, hlists, hcanonical, hpresent⟩
    refine ⟨parts, hlists, hbound parts s' hlists, hcanonical.ext
      (RangeSet.canonical_foldl_insert RangeSet.canonical_empty) fun i => ?_⟩
    rw [hpresent, hhas]

theorem prepare_resume_iff {s s' : σ} (hbound : PageStore.Bounded s) (overwrite : Bool)
    {present : RangeSet} :
    prepare overwrite here s = (.ok (.resume present), s') ↔ overwrite = false ∧
      (∃ found, PageStore.properties s = .ok (some found) ∧ found.Unfinished here) ∧
      ∃ parts, PageStore.Lists s none parts s' ∧ present.Canonical ∧
        ∀ i, present.Has i ↔ ∃ l ∈ parts, ∃ r ∈ l.ranges, r.Has i := by
  rw [← listAll_ok_iff hbound]
  constructor
  · intro h
    rcases prepare_cases overwrite here s with ⟨hkeep, found, hfound, heq⟩ | ⟨e, heq⟩ | heq
    · rw [heq] at h
      by_cases hunfinished : found.Unfinished here
      · rw [resumeFrom_unfinished hunfinished] at h
        refine ⟨hkeep, ⟨found, hfound, hunfinished⟩, ?_⟩
        split at h
        next => exact nomatch (Prod.mk.inj h).1
        next listed s₁ hlist =>
          obtain ⟨hstart, rfl⟩ := Prod.mk.inj h
          injection hstart with hstart
          injection hstart with hstart
          rw [hlist, hstart]
      · obtain ⟨e, he⟩ := resumeFrom_of_not_unfinished hunfinished (s := s)
        exact nomatch (Prod.mk.inj (he.symm.trans h)).1
    · exact nomatch (Prod.mk.inj (heq.symm.trans h)).1
    · rw [heq] at h
      rcases createFor_cases here s with ⟨e, s₁, hcreate⟩ | ⟨s₁, hcreate, -⟩
      · exact nomatch (Prod.mk.inj (hcreate.symm.trans h)).1
      · exact nomatch (Prod.mk.inj (hcreate.symm.trans h)).1
  · rintro ⟨rfl, ⟨found, hfound, hunfinished⟩, hlist⟩
    rw [prepare_of_found hfound, resumeFrom_unfinished hunfinished, hlist]

/-- Of a store that has an object nothing is asked but a listing. -/
theorem prepare_calls {s : DisturbedStore σ} (hfound : PageStore.properties s = .ok (some found)) :
    ∃ markers : List (Option String),
      (prepare false here s).2.calls = s.calls ++ markers.map .list := by
  rw [prepare_of_found hfound]
  by_cases hunfinished : found.Unfinished here
  · obtain ⟨markers, hmarkers⟩ :=
      DisturbedStore.listFrom_calls (PageStore.listingBound s) none .empty s
    refine ⟨markers, ?_⟩
    have hlist : (PageStore.listAll s).2.calls = s.calls ++ markers.map .list := hmarkers
    rw [resumeFrom_unfinished hunfinished]
    split
    next hanswer =>
      rw [hanswer] at hlist
      exact hlist
    next hanswer =>
      rw [hanswer] at hlist
      exact hlist
  · obtain ⟨e, he⟩ := resumeFrom_of_not_unfinished hunfinished (s := s)
    rw [he]
    exact ⟨[], (List.append_nil _).symm⟩

/-- Only a new object is a fresh start. -/
theorem create_of_fresh {s s' : σ} {overwrite : Bool}
    (h : prepare overwrite here s = (.ok .fresh, s')) :
    PageStore.create s here.size here.toEntries = (.ok (), s') := by
  rcases prepare_cases overwrite here s with ⟨-, found, -, heq⟩ | ⟨e, heq⟩ | heq
  · rw [heq] at h
    by_cases hunfinished : found.Unfinished here
    · rw [resumeFrom_unfinished hunfinished] at h
      split at h
      next => exact nomatch (Prod.mk.inj h).1
      next => exact nomatch (Prod.mk.inj h).1
    · obtain ⟨e, he⟩ := resumeFrom_of_not_unfinished hunfinished (s := s)
      exact nomatch (Prod.mk.inj (he.symm.trans h)).1
  · exact nomatch (Prod.mk.inj (heq.symm.trans h)).1
  · rw [heq] at h
    rcases createFor_cases here s with ⟨e, s₁, hanswer⟩ | ⟨s₁, hanswer, hcreate⟩
    · exact nomatch (Prod.mk.inj (hanswer.symm.trans h)).1
    · rw [hcreate, (Prod.mk.inj (hanswer.symm.trans h)).2]

/-- An object that has just been made for an image is resumed with nothing to leave out, by
whatever name the file goes. -/
theorem prepare_again {m m' : MemoryStore} {overwrite : Bool} {there : ImageMetadata}
    (h : prepare overwrite here m = (.ok .fresh, m')) (hsame : here.SameImage there) :
    prepare false there m' = (.ok (.resume .empty), m') := by
  rcases MemoryStore.create_cases (create_of_fresh h) with ⟨-, hne⟩ | ⟨-, hm'⟩
  · exact absurd rfl hne
  · have hobject : m'.object = some ⟨.zeros here.size, here.toEntries, none, .empty⟩ := by rw [hm']
    have hproperties : PageStore.properties m' = .ok (some ⟨here.size, here.toEntries, none⟩) := by
      show Except.ok m'.properties = _
      unfold MemoryStore.properties
      rw [hobject]
      rfl
    have hunfinished : ObjectProperties.Unfinished ⟨here.size, here.toEntries, none⟩ there :=
      ⟨rfl, here, ImageMetadata.ofEntries_toEntries here, hsame⟩
    have hlist : PageStore.listAll m' = (.ok .empty, m') := by
      have hbound : 0 < PageStore.listingBound m' := by
        show 0 < m'.listingBound
        unfold MemoryStore.listingBound
        rw [hobject]
        exact Nat.succ_pos _
      exact MemoryStore.listFrom_eq hobject (Nat.two_pow_pos 64) rfl
        (Nat.lt_add_left 0 hbound) hbound .empty
    rw [prepare_of_found hproperties, resumeFrom_unfinished hunfinished, hlist]

/-- A session resumes exactly if nobody wants it to overwrite, the store has an unfinished object of
the same image and its listing comes to its end; it then takes for present what was listed.  An
object that is complete is told of first.  An entry that cannot be read comes before one that is
missing, and both before the fields that differ, which are told in their order.  Whatever object is
found, nothing but a listing is asked of the store, and of an object that is not resumed not even
that.  In memory, a new object is resumed from nothing. -/
theorem prepare_decides {s : DisturbedStore σ} (hbound : PageStore.Bounded s) (overwrite : Bool)
    (here : ImageMetadata) :
    (∀ present s', prepare overwrite here s = (.ok (.resume present), s') ↔ overwrite = false ∧
      (∃ found, PageStore.properties s = .ok (some found) ∧ found.Unfinished here) ∧
      ∃ parts, PageStore.Lists s none parts s' ∧ present.Canonical ∧
        ∀ i, present.Has i ↔ ∃ l ∈ parts, ∃ r ∈ l.ranges, r.Has i) ∧
    (∀ found, PageStore.properties s = .ok (some found) →
      (found.contentHash ≠ none → prepare false here s = (.error .alreadyUploaded, s)) ∧
      (found.contentHash = none →
        (∀ fault, ImageMetadata.ofEntries found.metadata = .error fault →
          prepare false here s = (.error (.storage fault.toError), s)) ∧
        (found.metadata.get? ImageMetadata.key = none →
          prepare false here s = (.error .missingMetadata, s)) ∧
        ∀ remote, ImageMetadata.ofEntries found.metadata = .ok (some remote) →
          ¬remote.SameImage here → ∃ differing, remote.Differences here differing ∧
            prepare false here s = (.error (.mismatch differing), s)) ∧
      ∃ markers : List (Option String),
        (prepare false here s).2.calls = s.calls ++ markers.map .list) ∧
    ∀ (m m' : MemoryStore) (there : ImageMetadata), prepare overwrite here m = (.ok .fresh, m') →
      here.SameImage there → prepare false there m' = (.ok (.resume .empty), m') := by
  refine ⟨fun present s' => prepare_resume_iff hbound overwrite, fun found hfound => ?_,
    fun m m' there => prepare_again⟩
  refine ⟨fun hcomplete => ?_, fun hnone => ⟨fun fault hfault => ?_, fun hmissing => ?_,
    fun remote hdecoded hother => ⟨_, ImageMetadata.differences_compare remote here, ?_⟩⟩,
    prepare_calls hfound⟩
  · rw [prepare_of_found hfound, resumeFrom_complete hcomplete]
  · rw [prepare_of_found hfound, resumeFrom_of_none hnone, hfault]
  · have habsent : ImageMetadata.ofEntries found.metadata = .ok none := by
      unfold ImageMetadata.ofEntries
      rw [hmissing]
    rw [prepare_of_found hfound, resumeFrom_of_none hnone, habsent]
  · rw [prepare_of_found hfound, resumeFrom_of_none hnone, hdecoded]
    exact if_pos fun hsame => hother (ImageMetadata.compare_eq_nil.mp hsame)

/-- An object of three pages of one byte, of which the first and the last are written, is listed in
two parts and resumed under another name of the file. -/
theorem prepare_decides_renamed :
    let here : ImageMetadata := { ImageMetadata.awkward with size := 3, size_lt := by decide }
    let there : ImageMetadata := { here with fileName := "renamed.img" }
    let page (i : Fin 3) : ByteRange := ⟨i, i, Nat.le_refl _, by omega⟩
    let calls : List StorageCall := [.create 3 here.toEntries, .write (page 0) ⟨#[1]⟩,
      .write (page 2) ⟨#[1]⟩]
    let m := (PageStore.askAll .ok (MemoryStore.empty 1 1) calls).2
    prepare false there (DisturbedStore.around m {}) =
      (.ok (.resume ⟨[page 0, page 2]⟩), ⟨m, {}, [.list none, .list (some "1")]⟩) := by
  intro here there page calls m
  have hcalls : ∀ size metadata, .create size metadata ∈ calls → size < 2 ^ 64 := by
    intro size metadata hmem
    simp only [calls, List.mem_cons, StorageCall.create.injEq, reduceCtorEq,
      List.not_mem_nil, or_false] at hmem
    omega
  have hshows : m.Shows (PageObject.after 1 ([] ++ calls)) :=
    (MemoryStore.shows_askAll (MemoryStore.shows_empty 1 1) hcalls).2
  have hbound : PageStore.Bounded (DisturbedStore.around m {}) :=
    DisturbedStore.bounded (MemoryStore.Shows.bounded hshows)
  have hproperties : m.properties = some ⟨3, here.toEntries, none⟩ := by decide +kernel
  have hfirst : m.list none = .ok ⟨[page 0], some "1"⟩ := by decide +kernel
  have hlast : m.list (some "1") = .ok ⟨[page 2], none⟩ := by decide +kernel
  have hlist : ∀ {calls marker l}, m.list marker = .ok l →
      PageStore.list (⟨m, {}, calls⟩ : DisturbedStore MemoryStore) marker =
        (.ok l, ⟨m, {}, calls ++ [.list marker]⟩) := by
    intro calls marker l hl
    show (m.list marker, _) = _
    rw [hl]
  refine ((prepare_decides hbound false there).1 _ _).mpr ⟨rfl, ?_, ?_⟩
  · exact ⟨_, congrArg Except.ok hproperties, rfl, here, ImageMetadata.ofEntries_toEntries here,
      rfl, rfl, rfl⟩
  · refine ⟨[⟨[page 0], some "1"⟩, ⟨[page 2], none⟩],
      .more (hlist hfirst) rfl (by decide) (.last (hlist hlast) (.inl rfl)), by decide, fun i => ?_⟩
    simp only [List.mem_cons, List.not_mem_nil, or_false, exists_eq_or_imp, exists_eq_left,
      RangeSet.Has]

end Sync
end ImageUpload
