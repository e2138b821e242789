import ImageUpload.Proofs.Store.Disturbed
import ImageUpload.Proofs.Store.Object
import ImageUpload.Store.Directory
import ImageUpload.Store.Recorded

/-
The listing of a store, part by part.

`Lists` follows the markers of a listing to its end, however long it is, and `listFrom` finds the
same within so many parts: `listFrom_ok_iff`.  No store has a listing of more parts than it says,
`Bounded`.

In a store in memory a marker is a place among the written runs, and each marker lies behind the
one before it and before the last run.  The runs may be more or fewer by the next part, as others
write to the store, but never more than the object has pages.  So the listing comes to its end
also beside other writers, and what it told of is still written: `listed_are_written`.
-/

namespace ImageUpload

namespace PageStore

/-! ## To the end of a listing -/

section

variable {σ : Type} [PageStore σ]

/-- The parts of a listing from a marker on, of which only the last one has no marker. -/
inductive Lists : σ → Option String → List Listing → σ → Prop where
  | last {s s' : σ} {marker : Option String} {l : Listing} (hlist : list s marker = (.ok l, s'))
    (hend : l.next = none ∨ l.next = some "") : Lists s marker [l] s'
  | more {s s₁ s' : σ} {marker : Option String} {l : Listing} {next : String}
    {rest : List Listing} (hlist : list s marker = (.ok l, s₁)) (hnext : l.next = some next)
    (hne : next ≠ "") (hrest : Lists s₁ (some next) rest s') : Lists s marker (l :: rest) s'

/-- A listing of the store has no more parts than the store says. -/
def Bounded (s : σ) : Prop :=
  ∀ parts s', Lists s none parts s' → parts.length ≤ listingBound s

variable {s s' : σ} {marker : Option String} {known found : RangeSet} {n : Nat}

theorem listFrom_ok_iff : listFrom n marker known s = (.ok found, s') ↔
    ∃ parts, Lists s marker parts s' ∧ parts.length ≤ n ∧
      found = (parts.flatMap Listing.ranges).foldl RangeSet.insert known := by
  induction n generalizing marker known s with
  | zero =>
    refine ⟨nofun, ?_⟩
    rintro ⟨parts, hlists, hlength, -⟩
    cases hlists with
    | last => exact absurd hlength (by simp)
    | more => exact absurd hlength (by simp)
  | succ n ih =>
    rw [listFrom]
    constructor
    · intro h
      split at h
      next => cases h
      next l s₁ hlist =>
        dsimp only at h
        split at h
        next hnext =>
          obtain ⟨hfound, rfl⟩ := Prod.mk.inj h
          refine ⟨[l], .last hlist (.inl hnext), Nat.le_add_left 1 n, ?_⟩
          rw [List.flatMap_singleton]
          exact (Except.ok.inj hfound).symm
        next next hnext =>
          split at h
          next hempty =>
            obtain ⟨hfound, rfl⟩ := Prod.mk.inj h
            refine ⟨[l], .last hlist (.inr (hempty ▸ hnext)), Nat.le_add_left 1 n, ?_⟩
            rw [List.flatMap_singleton]
            exact (Except.ok.inj hfound).symm
          next hne =>
            obtain ⟨rest, hrest, hlength, hfound⟩ := ih.mp h
            refine ⟨l :: rest, .more hlist hnext hne hrest, Nat.succ_le_succ hlength, ?_⟩
            rw [List.flatMap_cons, List.foldl_append]
            exact hfound
    · rintro ⟨parts, hlists, hlength, hfound⟩
      cases hlists with
      | last hlist hend =>
        rw [List.flatMap_singleton] at hfound
        rw [hlist, hfound]
        dsimp only
        rcases hend with hnext | hnext
        · rw [hnext]
        · rw [hnext]
          exact if_pos rfl
      | more hlist hnext hne hrest =>
        rw [List.flatMap_cons, List.foldl_append] at hfound
        rw [hlist]
        dsimp only
        rw [hnext]
        exact (if_neg hne).trans (ih.mpr ⟨_, hrest, Nat.le_of_succ_le_succ hlength, hfound⟩)

end

end PageStore

/-! ## The stores keep their bounds -/

namespace MemoryStore

variable {m : MemoryStore} {marker : Option String} {start : Nat}

/-- A part holds written runs only.  If it is not the last one, its marker stands behind the
place where it begins and before the last run. -/
theorem list_part {o : MemoryObject} (ho : m.object = some o) (hstart : startOf marker = .ok start) :
    ∃ l, m.list marker = .ok l ∧ (∀ r ∈ l.ranges, r ∈ o.written.ranges) ∧
      (l.next = none ∨ ∃ stop, start < stop ∧ stop < o.written.ranges.length ∧
        l.next = some (toString stop)) := by
  have hlength := m.listingLength_pos
  unfold list
  rw [ho]
  simp only [hstart]
  refine ⟨_, rfl, fun r hr => List.mem_of_mem_take (List.mem_of_mem_drop hr), ?_⟩
  dsimp only
  split
  next hmore => exact .inr ⟨_, by omega, hmore, rfl⟩
  next => exact .inl rfl

/-- The listing of an object has a part for each of its pages at most, and one more. -/
theorem Shows.bounded {p : Option PageObject} (h : m.Shows p) : PageStore.Bounded m := by
  intro parts m' hlists
  rcases h.cases with ⟨hnone, -⟩ | ⟨o, p, ho, -, hp⟩
  · -- without an object there is no first part
    have hfirst : ∀ l m', PageStore.list m none = (.ok l, m') → False := by
      intro l m' hlist
      have hok : m.list none = .ok l := congrArg Prod.fst hlist
      unfold list at hok
      rw [hnone] at hok
      exact nomatch hok
    cases hlists with
    | last hlist => exact (hfirst _ _ hlist).elim
    | more hlist => exact (hfirst _ _ hlist).elim
  · have hcount := hp.paged.length_le m.page_pos
    have hsmall : p.size / m.page < 2 ^ 64 :=
      Nat.lt_of_le_of_lt (Nat.div_le_self ..) hp.small
    have hbound : PageStore.listingBound m = p.size / m.page + 2 := by
      show m.listingBound = _
      unfold listingBound
      simp only [ho]
      rw [hp.size]
    have hparts : ∀ {m m' : MemoryStore} {marker start parts},
        m.object = some o → startOf marker = .ok start → start ≤ o.written.ranges.length →
        PageStore.Lists m marker parts m' → parts.length + start ≤ o.written.ranges.length + 1 := by
      intro m m' marker start parts ho hstart hle hlists
      induction hlists generalizing start with
      | last => exact Nat.add_comm .. ▸ Nat.succ_le_succ hle
      | @more m _ _ marker _ _ _ hlist hnext hne hrest ih =>
        have hpair : (m.list marker, m) = (.ok _, _) := hlist
        obtain ⟨hok, rfl⟩ := Prod.mk.inj hpair
        obtain ⟨l, hl, -, hend⟩ := list_part ho hstart
        obtain rfl := Except.ok.inj (hl.symm.trans hok)
        rcases hend with hnone | ⟨stop, hbehind, hbefore, hstop⟩
        · exact nomatch hnone.symm.trans hnext
        · obtain rfl := Option.some.inj (hstop.symm.trans hnext)
          have hrest := ih ho (startOf_marker (by omega)) (by omega)
          rw [List.length_cons]
          omega
    have hlength := hparts ho rfl (Nat.zero_le _) hlists
    rw [hbound]
    omega

end MemoryStore

/-- The one part of a listing is the whole. -/
theorem DirectoryStore.bounded (s : DirectoryStore) : PageStore.Bounded s := by
  intro parts s' hlists
  have hwhole : ∀ {l s₁}, PageStore.list s none = (.ok l, s₁) → l.next = none := by
    intro l s₁ hlist
    have hok : s.list = .ok l := congrArg Prod.fst hlist
    unfold list at hok
    split at hok
    next => exact nomatch hok
    next => rw [← Except.ok.inj hok]
  cases hlists with
  | last => exact Nat.le_refl 1
  | more hlist hnext => exact nomatch (hwhole hlist).symm.trans hnext

/-- There is an answer for each part. -/
theorem RecordedListing.bounded (s : RecordedListing) : PageStore.Bounded s := by
  have hparts : ∀ {s s' : RecordedListing} {marker parts}, PageStore.Lists s marker parts s' →
      parts.length ≤ s.answers.length := by
    intro s s' marker parts hlists
    have hanswer : ∀ {s s' : RecordedListing} {marker l}, PageStore.list s marker = (.ok l, s') →
        s.answers.length = s'.answers.length + 1 := by
      intro s s' marker l hlist
      have hpair : s.list marker = (.ok l, s') := hlist
      unfold list at hpair
      split at hpair
      next => exact nomatch (Prod.mk.inj hpair).1
      next answer rest hanswers =>
        rw [← (Prod.mk.inj hpair).2, hanswers]
        rfl
    induction hlists with
    | last hlist => exact hanswer hlist ▸ Nat.le_add_left 1 _
    | more hlist _ _ _ ih => exact hanswer hlist ▸ Nat.succ_le_succ ih
  exact fun parts s' hlists => Nat.le_succ_of_le (hparts hlists)

namespace DisturbedStore

variable {σ : Type} [PageStore σ] {s s' : DisturbedStore σ} {marker : Option String}

theorem list_calls {result : Except StorageError Listing}
    (h : PageStore.list s marker = (result, s')) : s'.calls = s.calls ++ [.list marker] := by
  simp only [PageStore.list, relay] at h
  split at h
  next => rw [← (Prod.mk.inj h).2]
  next => rw [← (Prod.mk.inj h).2]

/-- However a listing goes, it is made of listing calls. -/
theorem listFrom_calls (parts : Nat) (marker : Option String) (known : RangeSet)
    (s : DisturbedStore σ) : ∃ markers : List (Option String),
      (PageStore.listFrom parts marker known s).2.calls = s.calls ++ markers.map .list := by
  induction parts generalizing s marker known with
  | zero => exact ⟨[], (List.append_nil _).symm⟩
  | succ parts ih =>
    rw [PageStore.listFrom]
    split
    next e s' hlist => exact ⟨[marker], list_calls hlist⟩
    next l s' hlist =>
      dsimp only
      split
      next => exact ⟨[marker], list_calls hlist⟩
      next next _ =>
        split
        next => exact ⟨[marker], list_calls hlist⟩
        next =>
          obtain ⟨markers, hmarkers⟩ := ih (some next) (l.ranges.foldl RangeSet.insert known) s'
          refine ⟨marker :: markers, ?_⟩
          rw [hmarkers, list_calls hlist, List.append_assoc]
          rfl

/-- A listing that is not cut short is one of the store within. -/
theorem lists_inner {parts : List Listing} (h : PageStore.Lists s marker parts s') :
    PageStore.Lists s.inner marker parts s'.inner := by
  have hinner : ∀ {s s' : DisturbedStore σ} {marker l}, PageStore.list s marker = (.ok l, s') →
      PageStore.list s.inner marker = (.ok l, s'.inner) := by
    intro s s' marker l hlist
    rcases relay_cases hlist with ⟨-, e, he⟩ | hanswer
    · exact nomatch he
    · exact hanswer
  induction h with
  | last hlist hend => exact .last (hinner hlist) hend
  | more hlist hnext hne _ ih => exact .more (hinner hlist) hnext hne ih

theorem bounded (h : PageStore.Bounded s.inner) : PageStore.Bounded s :=
  fun parts s' hlists => h parts s'.inner (lists_inner hlists)

end DisturbedStore

namespace MemoryStore

/-! ## Others write between the parts -/

variable {m : MemoryStore}

/-- The store after writes of others.  Those that do not fit change nothing. -/
def accept (m : MemoryStore) (writes : List (ByteRange × ByteArray)) : MemoryStore :=
  writes.foldl (fun m w => (m.write w.1 w.2).2) m

theorem accept_cons (m : MemoryStore) (w : ByteRange × ByteArray)
    (rest : List (ByteRange × ByteArray)) :
    m.accept (w :: rest) = (m.write w.1 w.2).2.accept rest :=
  rfl

theorem accept_append (m : MemoryStore) (a b : List (ByteRange × ByteArray)) :
    m.accept (a ++ b) = (m.accept a).accept b :=
  List.foldl_append

/-- The object keeps its size, and what is written stays written. -/
theorem Shows.accept {p : PageObject} (h : m.Shows (some p))
    (writes : List (ByteRange × ByteArray)) : ∃ p', p'.size = p.size ∧
      (m.accept writes).page = m.page ∧ (m.accept writes).Shows (some p') ∧
      ∀ o, m.written.Has o → (m.accept writes).written.Has o := by
  induction writes generalizing m p with
  | nil => exact ⟨p, rfl, rfl, h, fun _ ho => ho⟩
  | cons w rest ih =>
    rw [accept_cons]
    rcases h.write w.1 w.2 with ⟨q, m', hq, -, hwrite, hpage, hshows⟩ | ⟨-, e, hwrite⟩
    · obtain rfl := Option.some.inj hq
      have hgrows : ∀ o, m.written.Has o → m'.written.Has o := by
        rcases h.cases with ⟨-, hnone⟩ | ⟨k, q, hk, hq, hmk⟩
        · exact nomatch hnone
        · rcases hshows.cases with ⟨-, hnone⟩ | ⟨k', q', hk', hq', hmk'⟩
          · exact nomatch hnone
          · obtain rfl := Option.some.inj hq
            obtain rfl := Option.some.inj hq'
            intro o ho
            rw [written_eq hk, hmk.written] at ho
            rw [written_eq hk', hmk'.written]
            obtain ⟨v, hv, hvo⟩ := ho
            exact ⟨v, List.mem_cons_of_mem _ hv, hvo⟩
      obtain ⟨p', hsize, hpage', hshows', hgrows'⟩ := ih hshows
      rw [hwrite]
      exact ⟨p', hsize, hpage'.trans hpage, hshows', fun o ho => hgrows' o (hgrows o ho)⟩
    · rw [hwrite]
      exact ih h

end MemoryStore

/-- A store in memory that others write to while it is listed. -/
structure SharedStore where
  inner : MemoryStore
  /-- What others write before the listing call of each number. -/
  others : Nat → List (ByteRange × ByteArray)
  /-- How many listing calls there have been. -/
  listings : Nat

namespace SharedStore

/-- The others have written by the time the call is answered. -/
def list (s : SharedStore) (marker : Option String) : Except StorageError Listing × SharedStore :=
  let inner := s.inner.accept (s.others s.listings)
  (inner.list marker, { s with inner := inner, listings := s.listings + 1 })

instance : PageStore SharedStore where
  pageSize s := s.inner.page
  properties s := .ok s.inner.properties
  create s size metadata :=
    let (result, inner) := s.inner.create size metadata
    (result, { s with inner := inner })
  list := list
  write s range data :=
    let (result, inner) := s.inner.write range data
    (result, { s with inner := inner })
  setContentHash s hash :=
    let (result, inner) := s.inner.setContentHash hash
    (result, { s with inner := inner })
  listingBound s := s.inner.listingBound

variable {s : SharedStore}

open MemoryStore (startOf startOf_marker list_part toString_ne_empty)

/-- A listing that may still have a part for each page behind its marker comes to its end.  What
it has told of is written by then, and the store has taken the writes of others and nothing
else. -/
theorem listFrom_shared {p : PageObject} (h : s.inner.Shows (some p)) {parts start : Nat}
    {marker : Option String} (hstart : startOf marker = .ok start)
    (hparts : p.size / s.inner.page + 2 ≤ start + parts) (hle : start ≤ p.size / s.inner.page)
    (known : RangeSet) :
    ∃ found t k, PageStore.listFrom parts marker known s = (.ok found, t) ∧
      t.inner = s.inner.accept ((List.range' s.listings k).flatMap s.others) ∧
      ∀ o, found.Has o → known.Has o ∨ t.inner.written.Has o := by
  induction parts generalizing s p start marker known with
  | zero => omega
  | succ parts ih =>
    obtain ⟨p', hsize, hpage, hshows, -⟩ := h.accept (s.others s.listings)
    generalize hinner : s.inner.accept (s.others s.listings) = inner at hpage hshows
    obtain ⟨o, p'', ho, hp, hop⟩ : ∃ o p'', inner.object = some o ∧ some p' = some p'' ∧
        o.Shows inner.page p'' := by
      rcases hshows.cases with ⟨-, hnone⟩ | hsome
      · exact nomatch hnone
      · exact hsome
    obtain rfl := Option.some.inj hp
    have hcount := hop.paged.length_le inner.page_pos
    have hsmall : p'.size / inner.page < 2 ^ 64 :=
      Nat.lt_of_le_of_lt (Nat.div_le_self ..) hop.small
    obtain ⟨l, hl, hranges, hend⟩ := list_part ho hstart
    have hlist : PageStore.list s marker =
        (.ok l, { s with inner := inner, listings := s.listings + 1 }) := by
      show s.list marker = _
      unfold list
      simp only [hinner, hl]
    have hlisted : ∀ i, (l.ranges.foldl RangeSet.insert known).Has i →
        known.Has i ∨ inner.written.Has i := by
      intro i hi
      rcases RangeSet.has_foldl_insert.mp hi with hi | ⟨r, hr, hri⟩
      · exact .inl hi
      · rw [MemoryStore.written_eq ho]
        exact .inr ⟨r, hranges r hr, hri⟩
    rw [PageStore.listFrom, hlist]
    dsimp only
    rcases hend with hnext | ⟨stop, hbehind, hbefore, hnext⟩
    · rw [hnext]
      refine ⟨_, _, 1, rfl, ?_, hlisted⟩
      rw [List.range'_one, List.flatMap_singleton]
      exact hinner.symm
    · rw [hnext]
      simp only [if_neg (toString_ne_empty stop)]
      have hpages : p'.size / inner.page = p.size / s.inner.page := by rw [hsize, hpage]
      obtain ⟨found, t, k, hfrom, ht, hfound⟩ :=
        ih (s := { s with inner := inner, listings := s.listings + 1 }) hshows
          (startOf_marker (by omega)) (show p'.size / inner.page + 2 ≤ stop + parts by omega)
          (show stop ≤ p'.size / inner.page by omega) (l.ranges.foldl RangeSet.insert known)
      refine ⟨found, t, k + 1, hfrom, ?_, fun i hi => ?_⟩
      · rw [ht, List.range'_succ, List.flatMap_cons, MemoryStore.accept_append, hinner]
      · rcases hfound i hi with hi | hi
        · rcases hlisted i hi with hi | hi
          · exact .inl hi
          · -- what was written when this part was listed is written still
            obtain ⟨-, -, -, -, hgrows⟩ :=
              hshows.accept ((List.range' (s.listings + 1) k).flatMap s.others)
            exact .inr (ht ▸ hgrows i hi)
        · exact .inr hi

/-- If nobody else writes, the store is listed like the store in memory. -/
theorem listFrom_quiet (hquiet : ∀ n, s.others n = []) (parts : Nat) (marker : Option String)
    (known : RangeSet) :
    (PageStore.listFrom parts marker known s).1 =
      (PageStore.listFrom parts marker known s.inner).1 := by
  induction parts generalizing s marker known with
  | zero => rfl
  | succ parts ih =>
    have hlist : PageStore.list s marker =
        (s.inner.list marker, { s with listings := s.listings + 1 }) := by
      show s.list marker = _
      unfold list
      rw [hquiet]
      rfl
    have hinner : PageStore.list s.inner marker = (s.inner.list marker, s.inner) := rfl
    rw [PageStore.listFrom, PageStore.listFrom, hlist, hinner]
    cases s.inner.list marker with
    | error e => rfl
    | ok l =>
      dsimp only
      split
      next => rfl
      next next _ =>
        split
        next => rfl
        next => exact ih (s := { s with listings := s.listings + 1 }) hquiet _ _

/-- After any calls that leave an object, whatever others write between the parts of its listing,
the listing comes to its end.  The store has then taken what the others wrote before each part and
nothing else, and every byte that was listed is written.  If nobody else writes, the listing is the
written set. -/
theorem listed_are_written (page listingLength : Nat) {calls : List StorageCall}
    (hcalls : ∀ size metadata, .create size metadata ∈ calls → size < 2 ^ 64)
    (hobject : (PageStore.askAll .ok (MemoryStore.empty page listingLength) calls).2.object ≠ none)
    (others : Nat → List (ByteRange × ByteArray)) :
    let m := (PageStore.askAll .ok (MemoryStore.empty page listingLength) calls).2
    ∃ found t k, PageStore.listAll (⟨m, others, 0⟩ : SharedStore) = (.ok found, t) ∧
      t.inner = m.accept ((List.range k).flatMap others) ∧
      (∀ i, found.Has i → t.inner.written.Has i) ∧
      ((∀ n, others n = []) → found = m.written) := by
  intro m
  have hshows : m.Shows (PageObject.after (max 1 page) ([] ++ calls)) :=
    (MemoryStore.shows_askAll (MemoryStore.shows_empty page listingLength) hcalls).2
  rcases hshows.cases with ⟨hnone, -⟩ | ⟨o, p, ho, hp, hop⟩
  · exact absurd hnone hobject
  · rw [hp] at hshows
    have hbound : PageStore.listingBound (⟨m, others, 0⟩ : SharedStore) =
        p.size / m.page + 2 := by
      show m.listingBound = _
      unfold MemoryStore.listingBound
      simp only [ho]
      rw [hop.size]
    obtain ⟨found, t, k, hlist, ht, hfound⟩ := listFrom_shared
      (s := ⟨m, others, 0⟩) hshows (show startOf none = .ok 0 from rfl)
      (show p.size / m.page + 2 ≤ 0 + _ by rw [Nat.zero_add]) (Nat.zero_le _) .empty
    unfold PageStore.listAll
    rw [hbound]
    refine ⟨found, t, k, hlist, ?_, fun i hi => ?_, fun hquiet => ?_⟩
    · rw [List.range_eq_range']
      exact ht
    · exact (hfound i hi).resolve_left (RangeSet.not_has_empty i)
    · have hcount := hop.paged.length_le m.page_pos
      have hfew : p.size / m.page ≤ p.size := Nat.div_le_self ..
      have hsmall := hop.small
      have hsame := listFrom_quiet (s := ⟨m, others, 0⟩) hquiet (p.size / m.page + 2) none .empty
      rw [hlist, MemoryStore.listFrom_eq ho (by omega) rfl (by omega) (by omega)] at hsame
      rw [Except.ok.inj hsame, List.drop_zero, MemoryStore.written_eq ho]
      exact RangeSet.foldl_insert_ranges hop.paged.canonical

/-- An object of six pages of one byte, of which the first, the third and the fifth are written,
has its runs listed one by one.  When the second part is asked for, the page between the first two
runs has been written, and the runs behind it have moved up: the third page is not listed. -/
theorem listed_are_written_moved :
    let page (i : Fin 6) : ByteRange := ⟨i, i, Nat.le_refl _, by omega⟩
    let calls : List StorageCall := [.create 6 .empty, .write (page 0) ⟨#[1]⟩,
      .write (page 2) ⟨#[1]⟩, .write (page 4) ⟨#[1]⟩]
    let m := (PageStore.askAll .ok (MemoryStore.empty 1 1) calls).2
    let others (n : Nat) := if n = 1 then [(page 1, (⟨#[1]⟩ : ByteArray))] else []
    ∃ t, PageStore.listAll (⟨m, others, 0⟩ : SharedStore) = (.ok ⟨[page 0, page 4]⟩, t) ∧
      (∀ i, RangeSet.Has ⟨[page 0, page 4]⟩ i → t.inner.written.Has i) ∧
      t.inner.written.Has 2 := by
  intro page calls m others
  have hcalls : ∀ size metadata, .create size metadata ∈ calls → size < 2 ^ 64 := by
    intro size metadata hmem
    simp only [calls, List.mem_cons, StorageCall.create.injEq, reduceCtorEq,
      List.not_mem_nil, or_false] at hmem
    omega
  have hobject : m.object.isSome = true := by decide +kernel
  obtain ⟨found, t, k, hlist, -, hwritten, -⟩ :=
    listed_are_written 1 1 hcalls (Option.isSome_iff_ne_none.mp hobject) others
  have hfound : (PageStore.listAll (⟨m, others, 0⟩ : SharedStore)).1.toOption =
      some ⟨[page 0, page 4]⟩ := by decide +kernel
  have hjoined : (PageStore.listAll (⟨m, others, 0⟩ : SharedStore)).2.inner.written.Has 2 := by
    decide +kernel
  rw [hlist] at hfound hjoined
  obtain rfl := Option.some.inj hfound
  exact ⟨t, hlist, hwritten, hjoined⟩

end SharedStore
end ImageUpload
