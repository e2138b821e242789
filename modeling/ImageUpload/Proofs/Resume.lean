import Mathlib.Data.List.Basic
import ImageUpload.Proofs.Plan

/-
Resuming with what was acknowledged.

Whole ranges of a plan that count as present leave the other ranges as they are, borders
and all, although the set of what is present forgets where one range ended and the next
began: `locate_union` for the pages of the image, and `reconcile_resumes` for the plan.  The
reason is that the ranges of a cell are the runs of a canonical set, and a canonical set
without some of its runs is the canonical set of what is left.

With cells of another size the ranges are others, and there is no such equation.  What is left
out of a finished plan is zero page by page, though, and so it is left out of every later plan:
`reconcile_stays_finished`.
-/

namespace ImageUpload

/-- Of ascending ranges no two share a byte. -/
theorem ByteRange.eq_of_has_of_ascending {ranges : List ByteRange}
    (h : ranges.Pairwise (fun a b => a.last < b.first)) {a b : ByteRange} (ha : a ∈ ranges)
    (hb : b ∈ ranges) {o : Nat} (hao : a.Has o) (hbo : b.Has o) : a = b := by
  induction ranges with
  | nil => exact absurd ha List.not_mem_nil
  | cons r rest ih =>
    obtain ⟨hr, hrest⟩ := List.pairwise_cons.mp h
    have hapart : ∀ s ∈ rest, r.Has o → ¬s.Has o := by
      intro s hs hro hso
      have hlast := hro.2
      have hfirst := hso.1
      have hgap := hr s hs
      omega
    rcases List.mem_cons.mp ha with rfl | harest
    · rcases List.mem_cons.mp hb with rfl | hbrest
      · rfl
      · exact absurd hbo (hapart b hbrest hao)
    · rcases List.mem_cons.mp hb with rfl | hbrest
      · exact absurd hao (hapart a harest hbo)
      · exact ih hrest harest hbrest

/-- The runs that are left of a set hold what is in none of those taken away. -/
theorem RangeSet.has_filter_not_mem {s : RangeSet} {sent : List ByteRange}
    (hapart : ∀ r ∈ s.ranges, ∀ a ∈ sent, ∀ o, r.Has o → a.Has o → r = a) {o : Nat} :
    Has ⟨s.ranges.filter (fun r => decide (r ∉ sent))⟩ o ↔ s.Has o ∧ ¬∃ a ∈ sent, a.Has o := by
  constructor
  · rintro ⟨r, hr, hro⟩
    obtain ⟨hmem, hnot⟩ := List.mem_filter.mp hr
    refine ⟨⟨r, hmem, hro⟩, fun ⟨a, ha, hao⟩ => ?_⟩
    exact of_decide_eq_true hnot (hapart r hmem a ha o hro hao ▸ ha)
  · rintro ⟨⟨r, hr, hro⟩, hnone⟩
    exact ⟨r, List.mem_filter.mpr ⟨hr, decide_eq_true fun hsent => hnone ⟨r, hsent, hro⟩⟩, hro⟩

namespace Layout

variable {l : Layout} {present : RangeSet} {sent : List ByteRange}

/-- Ranges on pages make no page whole that lies in none of them. -/
theorem hasPage_union (hp : 0 < l.page) (hsent : ∀ a ∈ sent, a.OnPages l.page) {o : Nat} :
    (present.union (.ofRanges sent)).HasPage l.page o ↔
      present.HasPage l.page o ∨ ∃ a ∈ sent, a.Has o := by
  constructor
  · intro hall
    by_cases hin : ∃ a ∈ sent, a.Has o
    · exact .inr hin
    · refine .inl fun o' heq => ?_
      rcases RangeSet.has_union.mp (hall o' heq) with hpresent | hunion
      · exact hpresent
      · obtain ⟨a, ha, hao'⟩ := RangeSet.has_ofRanges.mp hunion
        exact absurd ⟨a, ha, has_of_same_page hp (hsent a ha) heq.symm hao'⟩ hin
  · rintro (hall | ⟨a, ha, hao⟩) o' heq
    · exact RangeSet.has_union.mpr (.inl (hall o' heq))
    · have hao' : a.Has o' := has_of_same_page hp (hsent a ha) heq hao
      exact RangeSet.has_union.mpr (.inr (RangeSet.has_ofRanges.mpr ⟨a, ha, hao'⟩))

/-- Once some of its ranges are present, a cell lacks the others. -/
theorem lacking_union (hp : 0 < l.page) (hpresent : present.Canonical) {cell : ByteRange}
    (hc : cell.OnPages l.page) (hsent : ∀ a ∈ sent, a.OnPages l.page)
    (hapart : ∀ r ∈ l.lacking present cell, ∀ a ∈ sent, ∀ o, r.Has o → a.Has o → r = a) :
    l.lacking (present.union (.ofRanges sent)) cell =
      (l.lacking present cell).filter (fun r => decide (r ∉ sent)) := by
  have hcanonical : RangeSet.Canonical ⟨l.lacking present cell⟩ := RangeSet.canonical_ofRanges _
  have hset : (⟨l.lacking (present.union (.ofRanges sent)) cell⟩ : RangeSet) =
      ⟨(l.lacking present cell).filter (fun r => decide (r ∉ sent))⟩ := by
    refine RangeSet.Canonical.ext (RangeSet.canonical_ofRanges _) (hcanonical.filter _) fun o => ?_
    have hbefore : RangeSet.Has ⟨l.lacking present cell⟩ o ↔ _ := has_lacking hp hpresent hc
    have hafter : RangeSet.Has ⟨l.lacking (present.union (.ofRanges sent)) cell⟩ o ↔ _ :=
      has_lacking hp (RangeSet.canonical_union _ _) hc
    rw [RangeSet.has_filter_not_mem (s := ⟨l.lacking present cell⟩) hapart, hafter, hbefore,
      hasPage_union hp hsent, not_or, and_assoc]
  injection hset

/-- Located ranges that became present are not located again, and the others are as they
were. -/
theorem locate_union {size : Nat} {located : List ByteRange} (hsize : size ≤ 2 ^ 64)
    (hpresent : present.Canonical) (h : l.locate size present = .ok located)
    (hsent : ∀ a ∈ sent, a ∈ located) :
    l.locate size (present.union (.ofRanges sent)) =
      .ok (located.filter (fun r => decide (r ∉ sent))) := by
  have hl := fits_of_locate h
  have hpages : ∀ a ∈ sent, a.OnPages l.page := fun a ha =>
    (onPages_of_mem_locate hsize hpresent h (hsent a ha)).1
  have hapart : ∀ r ∈ located, ∀ a ∈ sent, ∀ o, r.Has o → a.Has o → r = a := fun r hr a ha o =>
    ByteRange.eq_of_has_of_ascending (ascending_locate hsize hpresent h) hr (hsent a ha)
  have hcells := locate_eq hl present
  rw [h] at hcells
  injection hcells with hcells
  rw [locate_eq hl, hcells, List.filter_flatMap]
  refine congrArg Except.ok (List.flatMap_congr fun cell hcell => ?_)
  obtain ⟨k, hk⟩ := (mem_cells hl hsize).mp hcell
  refine lacking_union hl.page_pos hpresent (hk.onPages hl) hpages fun r hr => hapart r ?_
  rw [hcells]
  exact List.mem_flatMap.mpr ⟨cell, hcell, hr⟩

end Layout

/-- A second run is to send the ranges of the first plan that were not acknowledged, as
they were, in their order, and nothing else. -/
theorem reconcile_resumes {image : ByteArray} {first next : Reader} {l : Layout}
    {present : RangeSet} (hfirst : first.source.Delivers image)
    (hnext : next.source.Delivers image) (hl : l.Fits image.size) (hsize : image.size < 2 ^ 64)
    (hpresent : present.Canonical) :
    ∃ p r, first.reconcile l present = (.ok p, r) ∧
      (∀ sent : List ByteRange, (∀ range ∈ sent, range ∈ p.ranges) →
        ∃ r', next.reconcile l (present.union (.ofRanges sent)) =
          (.ok ⟨p.size, p.ranges.filter (fun range => decide (range ∉ sent))⟩, r')) ∧
      ∃ r', next.reconcile l (present.union (.ofRanges p.ranges)) = (.ok ⟨p.size, []⟩, r') := by
  have hle := Nat.le_of_lt hsize
  have hlocate := Layout.locate_eq hl present
  obtain ⟨r, hp⟩ := Reader.reconcile_eq hfirst hle hpresent hlocate
  refine ⟨_, r, hp, ?_⟩
  generalize hranges : ((l.cells image.size).flatMap (l.lacking present)).filter
    (fun range => !isZeroed (first.source.slice range)) = ranges
  have hsame : ∀ range, next.source.slice range = first.source.slice range := by
    intro range
    unfold Source.slice
    rw [hnext.bytes, hfirst.bytes]
  have hrest : ∀ sent : List ByteRange, (∀ range ∈ sent, range ∈ ranges) →
      ∃ r', next.reconcile l (present.union (.ofRanges sent)) =
        (.ok ⟨image.size, ranges.filter (fun range => decide (range ∉ sent))⟩, r') := by
    intro sent hsent
    have hunion := Layout.locate_union hle hpresent hlocate fun a ha =>
      (List.mem_filter.mp (hranges ▸ hsent a ha)).1
    obtain ⟨r', hr'⟩ := Reader.reconcile_eq hnext hle (RangeSet.canonical_union _ _) hunion
    refine ⟨r', ?_⟩
    simp only [hsame, List.filter_filter] at hr'
    rw [hr', ← hranges, List.filter_filter]
    simp only [Bool.and_comm]
  refine ⟨hrest, ?_⟩
  obtain ⟨r', hr'⟩ := hrest ranges fun _ h => h
  refine ⟨r', ?_⟩
  rw [hr', List.filter_eq_nil_iff.mpr fun range hr => ?_]
  simpa using hr

/-- Half of the page at 4 is present, and the third cell is zero.  Of the three ranges to send
the second one was acknowledged, and the other two are left. -/
theorem reconcile_resumes_middle :
    let image : ByteArray := ⟨#[1, 2, 3, 4, 5, 6, 0, 0, 0, 0, 0, 0, 7, 8]⟩
    let present : RangeSet := .ofRanges [⟨4, 4, by decide, by decide⟩]
    let front : ByteRange := ⟨0, 3, by decide, by decide⟩
    let middle : ByteRange := ⟨4, 7, by decide, by decide⟩
    let back : ByteRange := ⟨12, 13, by decide, by decide⟩
    let r := Reader.ofSource (.ofBytes image)
    ∃ r₁ r₂, r.reconcile ⟨2, 4⟩ present = (.ok ⟨14, [front, middle, back]⟩, r₁) ∧
      r.reconcile ⟨2, 4⟩ (present.union (.ofRanges [middle])) = (.ok ⟨14, [front, back]⟩, r₂) := by
  intro image present front middle back r
  have hd : r.source.Delivers image := Source.ofBytes_delivers image (by decide)
  obtain ⟨⟨size, ranges⟩, r₁, hp, hrest, -⟩ := reconcile_resumes (l := ⟨2, 4⟩) hd hd
    ⟨by decide, by decide, by decide⟩ (by decide) (RangeSet.canonical_ofRanges _)
  have hplan : (r.reconcile ⟨2, 4⟩ present).1.toOption.map (fun p => (p.size, p.ranges)) =
      some (14, [front, middle, back]) := by decide +kernel
  rw [hp] at hplan
  injection hplan with hplan
  obtain ⟨rfl, rfl⟩ := Prod.mk.inj hplan
  obtain ⟨r₂, hsecond⟩ := hrest [middle] fun range hrange => by
    rw [List.mem_singleton.mp hrange]
    exact List.mem_cons_of_mem _ List.mem_cons_self
  exact ⟨r₁, r₂, hp, hsecond⟩

/-! ## Cells of another size -/

/-- Once all of a plan is present, every plan with pages of this size is empty, whatever its cells
are.  A byte that is not zero lies on a page that was present, or in a range that was sent. -/
theorem Plan.Serves.ranges_eq_nil {p q : Plan} {l m : Layout} {present : RangeSet} {s t : Source}
    {image : ByteArray} (hp : p.Serves l present s) (hs : s.Holds image) (ht : t.Holds image)
    (hq : q.Serves m (present.union (.ofRanges p.ranges)) t) (hpage : m.page = l.page) :
    q.ranges = [] := by
  refine List.eq_nil_iff_forall_not_mem.mpr fun range hrange => ?_
  obtain ⟨o, ho, hne⟩ := hq.nonZero range hrange
  have hinside : o < s.size := by
    rw [hs.size, ← ht.size]
    exact Nat.lt_of_le_of_lt ho.2 (hq.inside range hrange)
  have hsent : ∀ a ∈ p.ranges, a.OnPages m.page := hpage ▸ hp.onPages
  have hlacking := hq.lacking range hrange o ho
  rw [Layout.hasPage_union hq.fits.page_pos hsent, hpage] at hlacking
  rcases hp.rest o hinside with hplanned | hwhole | hzero
  · exact hlacking (.inr hplanned)
  · exact hlacking (.inl hwhole)
  · rw [hs.bytes, ← ht.bytes] at hzero
    exact hne hzero

/-- Once all of a plan is present, nothing is left to send, and so it stays when the size of the
chunks changes. -/
theorem reconcile_stays_finished {image : ByteArray} {first next : Reader}
    {page chunk chunk' : Nat} {present : RangeSet} (hfirst : first.source.Delivers image)
    (hnext : next.source.Delivers image) (hl : Layout.Fits ⟨page, chunk⟩ image.size)
    (hchunk : 0 < chunk') (hsize : image.size < 2 ^ 64) (hpresent : present.Canonical) :
    ∃ p r, first.reconcile ⟨page, chunk⟩ present = (.ok p, r) ∧
      ∃ r', next.reconcile ⟨page, chunk'⟩ (present.union (.ofRanges p.ranges)) =
        (.ok ⟨image.size, []⟩, r') := by
  have hle : ∀ {s : Source}, s.Delivers image → s.size ≤ 2 ^ 64 := fun hs =>
    hs.size ▸ Nat.le_of_lt hsize
  obtain ⟨p, r, hp⟩ := Reader.reconcile_delivers hfirst hl (Nat.le_of_lt hsize) hpresent
  have hserves := Reader.reconcile_ok (hle hfirst) hpresent hp
  have hunion := RangeSet.canonical_union present (.ofRanges p.ranges)
  have hl' : Layout.Fits ⟨page, chunk'⟩ image.size := ⟨hl.page_pos, hchunk, hl.even⟩
  obtain ⟨q, r', hq⟩ := Reader.reconcile_delivers hnext hl' (Nat.le_of_lt hsize) hunion
  have hserves' := Reader.reconcile_ok (hle hnext) hunion hq
  have hnil : q.ranges = [] :=
    hserves.ranges_eq_nil hfirst.toHolds hnext.toHolds hserves' rfl
  have hwhole : q.size = image.size := hserves'.size.trans hnext.size
  obtain rfl : q = ⟨image.size, []⟩ := by
    cases q
    cases hnil
    cases hwhole
    rfl
  exact ⟨p, r, hp, r', hq⟩

/-- Of the page at 4 one byte is present.  Pages of two bytes make two ranges, and the zeros
between them are no work for a chunk of the whole image either. -/
theorem reconcile_stays_finished_regrouped :
    let image : ByteArray := ⟨#[1, 2, 0, 0, 0, 0, 7, 8]⟩
    let present : RangeSet := .ofRanges [⟨4, 4, by decide, by decide⟩]
    let front : ByteRange := ⟨0, 1, by decide, by decide⟩
    let back : ByteRange := ⟨6, 7, by decide, by decide⟩
    let r := Reader.ofSource (.ofBytes image)
    ∃ r₁ r₂, r.reconcile ⟨2, 1⟩ present = (.ok ⟨8, [front, back]⟩, r₁) ∧
      r.reconcile ⟨2, 8⟩ (present.union (.ofRanges [front, back])) = (.ok ⟨8, []⟩, r₂) := by
  intro image present front back r
  have hd : r.source.Delivers image := Source.ofBytes_delivers image (by decide)
  have hfits : Layout.Fits ⟨2, 1⟩ image.size := ⟨by decide, by decide, by decide⟩
  have hchunk : 0 < 8 := by decide
  have hpresent : present.Canonical := RangeSet.canonical_ofRanges _
  obtain ⟨⟨size, ranges⟩, r₁, hp, r₂, hsecond⟩ :=
    reconcile_stays_finished hd hd hfits hchunk (by decide) hpresent
  have hplan : (r.reconcile ⟨2, 1⟩ present).1.toOption.map (fun p => (p.size, p.ranges)) =
      some (8, [front, back]) := by decide +kernel
  rw [hp] at hplan
  injection hplan with hplan
  obtain ⟨rfl, rfl⟩ := Prod.mk.inj hplan
  exact ⟨r₁, r₂, hp, hsecond⟩

end ImageUpload
