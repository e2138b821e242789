import ImageUpload.Plan
import ImageUpload.Proofs.Layout
import ImageUpload.Proofs.Reading

/-
The plan of a session.

`Serves` says what a plan is for a layout, a set of present bytes and a source, and
`reconcile_ok` that every plan that is drawn up serves.  That writing the planned ranges
makes the image whole, and that nothing less would do, follows from it alone:
`reconcile_reproduces`.
-/

namespace ImageUpload

/-! ## Zeros -/

theorem isZeroed_iff {b : ByteArray} : isZeroed b = true ↔ ∀ i, byteOf b i = 0 := by
  unfold isZeroed
  rw [Array.all_eq_true]
  constructor
  · intro h i
    by_cases hi : i < b.size
    · rw [byteOf_of_lt hi]
      exact eq_of_beq (h i hi)
    · exact byteOf_of_le (by omega)
  · intro h i hi
    have hb := h i
    rw [byteOf_of_lt hi] at hb
    exact beq_iff_eq.mpr hb

theorem Source.isZeroed_slice {s : Source} {range : ByteRange} :
    isZeroed (s.slice range) = true ↔ ∀ o, range.Has o → byteOf s.bytes o = 0 := by
  rw [isZeroed_iff]
  constructor
  · intro h o ho
    rw [← s.byteOf_slice range ho]
    exact h _
  · intro h i
    by_cases hi : range.first + i ≤ range.last
    · have hplace : range.first + i - range.first = i := by omega
      have ho : range.Has (range.first + i) := ⟨Nat.le_add_right _ _, hi⟩
      have hb := s.byteOf_slice range ho
      rw [hplace] at hb
      rw [hb]
      exact h _ ho
    · unfold Source.slice
      rw [byteOf_extract, if_neg (by omega)]

namespace Reader

theorem nonZero_source (candidates : List ByteRange) (r : Reader) :
    (nonZero candidates r).2.source = r.source := by
  induction candidates generalizing r with
  | nil => rfl
  | cons range rest ih =>
    have hread := r.readRange_source range
    rw [nonZero]
    split
    next e r₁ h => rw [h] at hread; exact hread
    next b r₁ h =>
      rw [h] at hread
      have hrest := ih r₁
      split
      next e r₂ h₂ => rw [h₂] at hrest; exact hrest.trans hread
      next kept r₂ h₂ => rw [h₂] at hrest; exact hrest.trans hread

theorem nonZero_ok {candidates kept : List ByteRange} {r r' : Reader}
    (h : nonZero candidates r = (.ok kept, r')) :
    kept = candidates.filter (fun range => !isZeroed (r.source.slice range)) := by
  induction candidates generalizing r r' kept with
  | nil =>
    injection h with hk _
    injection hk with hk
    exact hk.symm
  | cons range rest ih =>
    have hread := r.readRange_source range
    rw [nonZero] at h
    split at h
    next _ => exact nomatch h
    next b r₁ hb =>
      rw [hb] at hread
      split at h
      next _ => exact nomatch h
      next kept' r₂ h₂ =>
        injection h with hk _
        injection hk with hk
        have hrest := ih h₂
        rw [hread] at hrest
        rw [List.filter_cons, ← hrest, ← hk, (readRange_ok hb).1]
        cases isZeroed (r.source.slice range) with
        | true => rfl
        | false => rfl

/-- There was room for all that has been read. -/
theorem nonZero_room {candidates kept : List ByteRange} {r r' : Reader}
    (h : nonZero candidates r = (.ok kept, r')) {range : ByteRange} (hrange : range ∈ candidates) :
    r.source.room range.length = true := by
  induction candidates generalizing r r' kept with
  | nil => exact absurd hrange List.not_mem_nil
  | cons first rest ih =>
    have hread := r.readRange_source first
    rw [nonZero] at h
    split at h
    next _ => exact nomatch h
    next b r₁ hb =>
      rw [hb] at hread
      split at h
      next _ => exact nomatch h
      next kept' r₂ h₂ =>
        rcases List.mem_cons.mp hrange with rfl | hrange
        · exact room_of_readRange hb nofun
        · rw [← hread]
          exact ih h₂ hrange

theorem nonZero_delivers {image : ByteArray} {candidates : List ByteRange} {r : Reader}
    (hd : r.source.Delivers image) (hinside : ∀ range ∈ candidates, range.last < image.size) :
    ∃ kept r', nonZero candidates r = (.ok kept, r') := by
  induction candidates generalizing r with
  | nil => exact ⟨_, _, rfl⟩
  | cons range rest ih =>
    obtain ⟨hrange, hrest⟩ := List.forall_mem_cons.mp hinside
    obtain ⟨r₁, h₁⟩ := readRange_delivers hd hrange
    have hsource := r.readRange_source range
    rw [h₁] at hsource
    obtain ⟨kept, r₂, h₂⟩ := ih (r := r₁) (by rw [hsource]; exact hd) hrest
    rw [nonZero, h₁]
    simp only [h₂]
    exact ⟨_, _, rfl⟩

end Reader

namespace Plan

/-! ## What a plan is -/

/-- The plan serves an image of which some bytes are present: it is made of pieces of the
image that are worth sending, and a byte outside of it lies on a page that is present, or
is zero. -/
structure Serves (p : Plan) (l : Layout) (present : RangeSet) (s : Source) : Prop where
  size : p.size = s.size
  fits : l.Fits s.size
  onPages : ∀ range ∈ p.ranges, range.OnPages l.page
  inside : ∀ range ∈ p.ranges, range.last < s.size
  room : ∀ range ∈ p.ranges, s.room range.length = true
  ascending : p.ranges.Pairwise (fun a b => a.last < b.first)
  lacking : ∀ range ∈ p.ranges, ∀ o, range.Has o → ¬present.HasPage l.page o
  nonZero : ∀ range ∈ p.ranges, ∃ o, range.Has o ∧ byteOf s.bytes o ≠ 0
  rest : ∀ o, o < s.size → (∃ range ∈ p.ranges, range.Has o) ∨ present.HasPage l.page o ∨
    byteOf s.bytes o = 0

end Plan

namespace Reader

theorem reconcile_source (r : Reader) (l : Layout) (present : RangeSet) :
    (r.reconcile l present).2.source = r.source := by
  simp only [reconcile]
  split
  next _ => rfl
  next candidates _ =>
    have hsource := nonZero_source candidates r
    split
    next h => rw [h] at hsource; exact hsource
    next h => rw [h] at hsource; exact hsource

theorem reconcile_ok {r r' : Reader} {l : Layout} {present : RangeSet} {p : Plan}
    (hsize : r.source.size ≤ 2 ^ 64) (hpresent : present.Canonical)
    (h : r.reconcile l present = (.ok p, r')) : p.Serves l present r.source := by
  simp only [reconcile] at h
  split at h
  next _ => exact nomatch h
  next candidates hlocate =>
    split at h
    next _ => exact nomatch h
    next kept r₁ hkept =>
      injection h with hp _
      injection hp with hp
      subst hp
      have hroom := fun range (hr : range ∈ candidates) => nonZero_room hkept hr
      have hkept := nonZero_ok hkept
      have hmem : ∀ range, range ∈ kept ↔
          range ∈ candidates ∧ ¬isZeroed (r.source.slice range) = true := by
        intro range
        rw [hkept, List.mem_filter, Bool.not_eq_true', Bool.not_eq_true]
      exact
        { size := rfl
          fits := Layout.fits_of_locate hlocate
          onPages := fun range hr =>
            (Layout.onPages_of_mem_locate hsize hpresent hlocate ((hmem range).mp hr).1).1
          inside := fun range hr =>
            (Layout.onPages_of_mem_locate hsize hpresent hlocate ((hmem range).mp hr).1).2
          room := fun range hr => hroom range ((hmem range).mp hr).1
          ascending := by
            show kept.Pairwise _
            rw [hkept]
            exact (Layout.ascending_locate hsize hpresent hlocate).filter _
          lacking := fun range hr o ho =>
            ((Layout.has_locate hsize hpresent hlocate).mp ⟨range, ((hmem range).mp hr).1, ho⟩).2
          nonZero := by
            intro range hr
            have hne := ((hmem range).mp hr).2
            rw [Source.isZeroed_slice] at hne
            obtain ⟨o, ho⟩ := Classical.not_forall.mp hne
            exact ⟨o, Classical.not_imp.mp ho⟩
          rest := by
            intro o ho
            by_cases hpage : present.HasPage l.page o
            · exact .inr (.inl hpage)
            · obtain ⟨range, hr, hro⟩ :=
                (Layout.has_locate hsize hpresent hlocate).mpr ⟨ho, hpage⟩
              by_cases hzero : isZeroed (r.source.slice range) = true
              · exact .inr (.inr (Source.isZeroed_slice.mp hzero o hro))
              · exact .inl ⟨range, (hmem range).mpr ⟨hr, hzero⟩, hro⟩ }

/-- The plan for a source that delivers its image: what is located and not zero. -/
theorem reconcile_eq {image : ByteArray} {r : Reader} {l : Layout} {present : RangeSet}
    {located : List ByteRange} (hd : r.source.Delivers image)
    (hsize : image.size ≤ 2 ^ 64) (hpresent : present.Canonical)
    (h : l.locate image.size present = .ok located) :
    ∃ r', r.reconcile l present =
      (.ok ⟨image.size, located.filter (fun range => !isZeroed (r.source.slice range))⟩, r') := by
  obtain ⟨kept, r', hkept⟩ := nonZero_delivers (r := r) hd fun range hr =>
    (Layout.onPages_of_mem_locate hsize hpresent h hr).2
  refine ⟨r', ?_⟩
  simp only [reconcile]
  rw [hd.size, h]
  simp only [hkept]
  rw [nonZero_ok hkept]

theorem reconcile_delivers {image : ByteArray} {r : Reader} {l : Layout} {present : RangeSet}
    (hd : r.source.Delivers image) (hl : l.Fits image.size) (hsize : image.size ≤ 2 ^ 64)
    (hpresent : present.Canonical) : ∃ p r', r.reconcile l present = (.ok p, r') := by
  obtain ⟨r', hplan⟩ := reconcile_eq hd hsize hpresent (Layout.locate_eq hl present)
  exact ⟨_, r', hplan⟩

end Reader

/-! ## Writing what is planned -/

namespace Plan

/-- Ascending ranges have no more bytes than there is room for. -/
theorem sum_length_le {l : List ByteRange} {low high : Nat}
    (h : l.Pairwise (fun a b => a.last < b.first)) (hlow : ∀ r ∈ l, low ≤ r.first)
    (hhigh : ∀ r ∈ l, r.last < high) (hle : low ≤ high) :
    low + (l.map ByteRange.length).sum ≤ high := by
  induction l generalizing low with
  | nil => exact hle
  | cons r rest ih =>
    obtain ⟨hr, hrest⟩ := List.pairwise_cons.mp h
    obtain ⟨hlowr, _⟩ := List.forall_mem_cons.mp hlow
    obtain ⟨hhighr, hhigh⟩ := List.forall_mem_cons.mp hhigh
    have hend := r.first_add_length
    have hsum : r.last + 1 + (rest.map ByteRange.length).sum ≤ high := ih hrest hr hhigh hhighr
    rw [List.map_cons, List.sum_cons]
    omega

theorem Serves.effective_le {p : Plan} {l : Layout} {present : RangeSet} {s : Source}
    (h : p.Serves l present s) : p.effective ≤ p.size := by
  have hsum := sum_length_le h.ascending (fun _ _ => Nat.zero_le _) h.inside (Nat.zero_le _)
  rw [h.size]
  unfold effective
  omega

theorem Serves.nodup {p : Plan} {l : Layout} {present : RangeSet} {s : Source}
    (h : p.Serves l present s) : p.ranges.Nodup := by
  refine h.ascending.imp fun {a b} hab heq => ?_
  have hb := b.first_le_last
  rw [heq] at hab
  omega

/-- The bytes with those of one range replaced by those of the image. -/
def replace (image b : ByteArray) (r : ByteRange) : ByteArray :=
  overwrite b r.first (image.extract r.first (r.last + 1))

theorem size_slice {image : ByteArray} {r : ByteRange} (h : r.last < image.size) :
    (image.extract r.first (r.last + 1)).size = r.last + 1 - r.first := by
  rw [ByteArray.size_extract]
  omega

theorem size_replace {image b : ByteArray} {r : ByteRange} (hsize : b.size = image.size)
    (h : r.last < image.size) : (replace image b r).size = image.size := by
  have hdata := size_slice h
  have hfirst := r.first_le_last
  unfold replace
  rw [size_overwrite]
  omega

theorem byteOf_replace {image b : ByteArray} {r : ByteRange} (h : r.last < image.size) (o : Nat) :
    byteOf (replace image b r) o = if r.Has o then byteOf image o else byteOf b o := by
  have hdata := size_slice h
  have hfirst := r.first_le_last
  unfold replace
  rw [byteOf_overwrite, hdata]
  by_cases hro : r.Has o
  · have hplace : r.first + (o - r.first) = o := Nat.add_sub_cancel' hro.1
    have hlast := hro.2
    rw [if_pos hro, if_pos ⟨hro.1, by omega⟩, byteOf_extract, hplace, if_pos (by omega)]
  · rw [if_neg hro, if_neg fun hin => hro ⟨hin.1, by omega⟩]

/-- The destination with the planned ranges replaced by those of the image. -/
def applyTo (p : Plan) (image destination : ByteArray) : ByteArray :=
  p.ranges.foldl (replace image) destination

theorem size_foldl_replace {image b : ByteArray} {ranges : List ByteRange}
    (hsize : b.size = image.size) (hin : ∀ r ∈ ranges, r.last < image.size) :
    (ranges.foldl (replace image) b).size = image.size := by
  induction ranges generalizing b with
  | nil => exact hsize
  | cons r rest ih =>
    obtain ⟨hr, hrest⟩ := List.forall_mem_cons.mp hin
    rw [List.foldl_cons]
    exact ih (size_replace hsize hr) hrest

theorem byteOf_foldl_replace {image b : ByteArray} {ranges : List ByteRange}
    (hin : ∀ r ∈ ranges, r.last < image.size) (o : Nat) :
    byteOf (ranges.foldl (replace image) b) o =
      if ∃ r ∈ ranges, r.Has o then byteOf image o else byteOf b o := by
  induction ranges generalizing b with
  | nil => rw [if_neg (by simp), List.foldl_nil]
  | cons r rest ih =>
    obtain ⟨hr, hrest⟩ := List.forall_mem_cons.mp hin
    rw [List.foldl_cons, ih hrest, byteOf_replace hr]
    by_cases hro : r.Has o
    · rw [if_pos hro, ite_self, if_pos ⟨r, List.mem_cons_self, hro⟩]
    · rw [if_neg hro]
      simp only [List.mem_cons, exists_eq_or_imp, hro, false_or]

/-- A destination that is right where it counts as present, and elsewhere right or zero,
is right everywhere once the planned ranges are written. -/
theorem Serves.applyTo_eq {p : Plan} {l : Layout} {present : RangeSet} {s : Source}
    {image destination : ByteArray} (h : p.Serves l present s) (hs : s.Holds image)
    (hsize : destination.size = image.size)
    (hpresent : ∀ o, present.Has o → byteOf destination o = byteOf image o)
    (helse : ∀ o, byteOf destination o = 0 ∨ byteOf destination o = byteOf image o) :
    p.applyTo image destination = image := by
  have hin : ∀ r ∈ p.ranges, r.last < image.size := fun r hr => hs.size ▸ h.inside r hr
  have hwhole : (p.applyTo image destination).size = image.size := size_foldl_replace hsize hin
  refine ext_byteOf hwhole fun o ho => ?_
  have hbyte : byteOf (p.applyTo image destination) o = _ := byteOf_foldl_replace hin o
  rw [hwhole, ← hs.size] at ho
  rw [hbyte]
  split
  next _ => rfl
  next hno =>
    rcases h.rest o ho with hplanned | hpage | hzero
    · exact absurd hplanned hno
    · exact hpresent o (hpage o rfl)
    · rw [hs.bytes] at hzero
      rcases helse o with hd | hd
      · rw [hd, hzero]
      · exact hd

end Plan

/-- The plan for a source that delivers its image makes every destination whole that it
may be drawn up for.  It is the least such plan that is made of cells and pages, and its
counts add up to the image. -/
theorem reconcile_reproduces {image : ByteArray} {r : Reader} {l : Layout} {present : RangeSet}
    (hd : r.source.Delivers image) (hl : l.Fits image.size) (hsize : image.size < 2 ^ 64)
    (hpresent : present.Canonical) :
    ∃ p r', r.reconcile l present = (.ok p, r') ∧
      (∀ destination : ByteArray, destination.size = image.size →
        (∀ o, present.Has o → byteOf destination o = byteOf image o) →
        (∀ o, byteOf destination o = 0 ∨ byteOf destination o = byteOf image o) →
        p.applyTo image destination = image) ∧
      (∀ range ∈ p.ranges,
        (∃ o, range.Has o ∧ byteOf image o ≠ 0) ∧
        ∀ o, range.Has o → ∃ o', o' / l.page = o / l.page ∧ range.Has o' ∧ ¬present.Has o') ∧
      p.effective + p.already = image.size := by
  obtain ⟨p, r', hp⟩ := Reader.reconcile_delivers hd hl (Nat.le_of_lt hsize) hpresent
  have hserves : p.Serves l present r.source :=
    Reader.reconcile_ok (by rw [hd.size]; exact Nat.le_of_lt hsize) hpresent hp
  refine ⟨p, r', hp, fun destination => hserves.applyTo_eq hd.toHolds, fun range hr => ⟨?_, ?_⟩, ?_⟩
  · rw [← hd.bytes]
    exact hserves.nonZero range hr
  · intro o ho
    obtain ⟨o', ho'⟩ := Classical.not_forall.mp (hserves.lacking range hr o ho)
    obtain ⟨hpage, hnot⟩ := Classical.not_imp.mp ho'
    exact ⟨o', hpage, Layout.has_of_same_page hl.page_pos (hserves.onPages range hr) hpage ho, hnot⟩
  · have heffective := hserves.effective_le
    have hwhole : p.size = image.size := hserves.size.trans hd.size
    unfold Plan.already
    omega

/-- Bytes 1 and 2 and all from 5 on are present, the last of them outside of the image, so
only the first page is sent, and with it the byte that the destination lacks. -/
theorem reconcile_reproduces_ragged :
    let image : ByteArray := ⟨#[1, 2, 0, 0, 0, 6, 7, 8]⟩
    ∃ p r', (Reader.ofSource (.ofBytes image)).reconcile ⟨2, 3⟩
        (.ofRanges [⟨5, 9, by decide, by decide⟩, ⟨1, 2, by decide, by decide⟩]) = (.ok p, r') ∧
      p.applyTo image ⟨#[0, 2, 0, 0, 0, 6, 7, 8]⟩ = image ∧ p.effective + p.already = 8 := by
  intro image
  have hsame : ∀ o, o ≠ 0 → byteOf ⟨#[0, 2, 0, 0, 0, 6, 7, 8]⟩ o = byteOf image o := by
    intro o ho
    by_cases hlt : o < 8
    · revert ho
      revert o
      decide
    · rw [byteOf_of_le (Nat.not_lt.mp hlt), byteOf_of_le (Nat.not_lt.mp hlt)]
  have hpresent := RangeSet.canonical_ofRanges
    [⟨5, 9, by decide, by decide⟩, ⟨1, 2, by decide, by decide⟩]
  obtain ⟨p, r', hp, hwrite, _, hcount⟩ :=
    reconcile_reproduces (r := .ofSource (.ofBytes image)) (l := ⟨2, 3⟩)
      (Source.ofBytes_delivers image (by decide)) ⟨by decide, by decide, by decide⟩ (by decide) hpresent
  refine ⟨p, r', hp, hwrite _ rfl (fun o ho => hsame o ?_) (fun o => ?_), hcount⟩
  · rintro rfl
    revert ho
    decide
  · by_cases ho : o = 0
    · exact .inl (ho ▸ rfl)
    · exact .inr (hsame o ho)

end ImageUpload
