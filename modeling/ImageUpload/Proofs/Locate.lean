import ImageUpload.Proofs.Partition
import ImageUpload.Proofs.RangeSet.InPlace

/-
Locating the pages of an image that are not wholly present.

The located ranges are exactly those pages, in runs that stay inside one cell and are as long as
they can be there: `Locates`.  Nothing overflows on the way, up to the largest image: with every
sum, difference and product taken in words, `locate?` comes to what `locate` does, unless there is
no room for the list of all cells.
-/

namespace ImageUpload

/-! ## In words -/

namespace Layout

variable {l : Layout} {size : Nat} {present : RangeSet}

/-- The page of the last byte of a piece ends with the image at the latest. -/
theorem widen?_eq {cell piece : ByteRange} (hl : l.Fits size) (hsize : size < 2 ^ 64)
    (hc : cell.OnPages l.page) (hfirst : cell.first ≤ piece.first) (hlast : piece.last ≤ cell.last)
    (hend : cell.last < size) : ∃ w, l.widen? cell piece = some w ∧ l.widen cell piece = some w := by
  obtain ⟨w, hw, -, -⟩ := widen_eq hl.page_pos hc hfirst hlast
  have hstart := page_start_le l.page piece.first
  have hpages := page_end_le hl.page_pos hl.even (Nat.lt_of_le_of_lt hlast hend)
  have hcount := Nat.le_mul_of_pos_right (piece.last / l.page + 1) hl.page_pos
  have hpiece := piece.last_lt
  have hone := lt_page_end hl.page_pos piece.last
  refine ⟨w, ?_, hw⟩
  unfold widen?
  rw [Word.mul?_eq (by have := piece.first_le_last; omega), Option.bind_some,
    Word.add?_eq (by omega), Option.bind_some, Word.mul?_eq (by omega), Option.bind_some,
    Word.sub?_eq (by omega), Option.bind_some]
  unfold widen at hw
  simp only at hw
  split at hw
  next hok =>
    rw [ByteRange.between?_eq hok.1 hok.2]
    exact hw
  next _ => exact absurd hw (Option.some_ne_none w).symm

theorem mapM_eq_filterMap {α β : Type} {xs : List α} {f g : α → Option β}
    (h : ∀ a ∈ xs, ∃ b, f a = some b ∧ g a = some b) : xs.mapM f = some (xs.filterMap g) := by
  induction xs with
  | nil => rfl
  | cons a rest ih =>
    obtain ⟨⟨b, hf, hg⟩, hrest⟩ := List.forall_mem_cons.mp h
    rw [List.mapM_cons, hf, ih hrest, List.filterMap_cons_some hg]
    rfl

theorem lacking?_eq {cell : ByteRange} (hl : l.Fits size) (hsize : size < 2 ^ 64)
    (hpresent : present.Canonical) (hc : cell.OnPages l.page) (hend : cell.last < size) :
    l.lacking? present cell = some (l.lacking present cell) := by
  unfold lacking? lacking
  rw [RangeSet.carve?_eq, Option.bind_some, mapM_eq_filterMap fun piece hpiece => ?_]
  · rfl
  · obtain ⟨hfirst, hlast⟩ := RangeSet.within_of_mem_carve hpresent hpiece
    exact widen?_eq hl hsize hc hfirst hlast hend

/-- In words the same ranges are located, if there is room for all cells. -/
theorem locate?_eq (hl : l.Fits size) (hsize : size < 2 ^ 64) (hcell : l.cellSize < 2 ^ 64)
    (hpresent : present.Canonical) (hroom : size ≤ mostCells * l.cellSize) :
    l.locate? size present = some (l.locate size present) := by
  unfold locate?
  rw [partition?_eq_ite hl hsize hcell, if_pos hroom, Option.bind_some, locate_eq hl]
  simp only
  rw [mapM_eq_filterMap (g := fun cell => some (l.lacking present cell)) fun cell hmem => ?_]
  · rw [List.filterMap_eq_map', List.flatMap_def]
    rfl
  · obtain ⟨k, hk⟩ := (mem_cells hl (Nat.le_of_lt hsize)).mp hmem
    have hend := hk.2.2
    exact ⟨_, lacking?_eq hl hsize hpresent (hk.onPages hl) (by omega), rfl⟩

theorem locate?_eq_none (hl : l.Fits size) (hsize : size < 2 ^ 64) (hcell : l.cellSize < 2 ^ 64)
    (present : RangeSet) (hroom : mostCells * l.cellSize < size) :
    l.locate? size present = none := by
  unfold locate?
  rw [partition?_eq_ite hl hsize hcell, if_neg (Nat.not_le.mpr hroom)]
  rfl

theorem locate?_of_not_fits (hl : ¬l.Fits size) (present : RangeSet) :
    ∃ f : LayoutFault, l.locate? size present = some (.error f.toError) := by
  obtain ⟨f, -, hcut⟩ := partition?_of_not_fits hl
  exact ⟨f, by simp only [locate?, hcut, Option.bind_some]⟩

/-! ## What is located -/

/-- Two runs in one cell lie a page apart at least. -/
theorem lacking_apart {cell : ByteRange} (hp : 0 < l.page) (hpresent : present.Canonical)
    (hc : cell.OnPages l.page) :
    (l.lacking present cell).Pairwise fun a b => a.last + 1 + l.page ≤ b.first := by
  have hgaps : (l.lacking present cell).Pairwise fun a b => a.last + 2 ≤ b.first :=
    RangeSet.canonical_ofRanges _
  refine hgaps.imp_of_mem fun {a b} ha hb hgap => ?_
  obtain ⟨⟨-, hend⟩, -, -⟩ := within_of_mem_lacking hp hpresent hc ha
  obtain ⟨⟨hbegin, -⟩, -, -⟩ := within_of_mem_lacking hp hpresent hc hb
  have hbetween := Nat.le_of_dvd (by omega) (Nat.dvd_sub hbegin hend)
  omega

theorem IsCell.div_eq {k : Nat} {cell : ByteRange} (hk : l.IsCell size k cell)
    {o : Nat} (hfirst : cell.first ≤ o) (hlast : o ≤ cell.last) : o / l.cellSize = k := by
  obtain ⟨-, hbegin, hend⟩ := hk
  exact Nat.div_eq_of_lt_le (by omega) (by omega)

/-- The located ranges are the pages of an image that are not wholly present, in runs that end
with their cell or before a page that is. -/
structure Locates (l : Layout) (size : Nat) (present : RangeSet) (located : List ByteRange) :
    Prop where
  ascending : located.Pairwise fun a b => a.last < b.first
  onPages : ∀ r ∈ located, r.OnPages l.page
  inside : ∀ r ∈ located, r.last < size
  oneCell : ∀ r ∈ located, r.first / l.cellSize = r.last / l.cellSize
  apart : located.Pairwise fun a b =>
    a.first / l.cellSize = b.first / l.cellSize → a.last + 1 + l.page ≤ b.first
  covered : ∀ n, n * l.page < size →
    ((∃ r ∈ located, ∀ o, o / l.page = n → r.Has o) ↔ ∃ o, o / l.page = n ∧ ¬present.Has o)

/-- A located range lies in the cell that its first byte tells. -/
theorem cell_of_mem_lacking {cell r : ByteRange} {k : Nat} (hl : l.Fits size)
    (hpresent : present.Canonical) (hk : l.IsCell size k cell) (hr : r ∈ l.lacking present cell) :
    r.first / l.cellSize = k ∧ r.last / l.cellSize = k := by
  obtain ⟨-, hfirst, hlast⟩ := within_of_mem_lacking hl.page_pos hpresent (hk.onPages hl) hr
  have horder := r.first_le_last
  exact ⟨hk.div_eq hfirst (by omega), hk.div_eq (by omega) hlast⟩

theorem apart_locate (hsize : size ≤ 2 ^ 64) (hpresent : present.Canonical)
    {located : List ByteRange} (h : l.locate size present = .ok located) :
    located.Pairwise fun a b =>
      a.first / l.cellSize = b.first / l.cellSize → a.last + 1 + l.page ≤ b.first := by
  have hl := fits_of_locate h
  have hcells : (l.cells size).Pairwise fun a b => a.last < b.first :=
    (ascending_cellsFrom _ _ _ _).1
  rw [locate_eq hl] at h
  injection h with h
  rw [← h, List.pairwise_flatMap]
  constructor
  · intro cell hcell
    obtain ⟨k, hk⟩ := (mem_cells hl hsize).mp hcell
    refine (lacking_apart hl.page_pos hpresent (hk.onPages hl)).imp fun hab => ?_
    exact fun _ => hab
  · refine hcells.imp_of_mem fun {c d} hc hd hcd a ha b hb hsame => ?_
    obtain ⟨j, hj⟩ := (mem_cells hl hsize).mp hc
    obtain ⟨k, hk⟩ := (mem_cells hl hsize).mp hd
    -- two different cells do not have one number
    have hjk : j = k := by
      rw [← (cell_of_mem_lacking hl hpresent hj ha).1, hsame,
        (cell_of_mem_lacking hl hpresent hk hb).1]
    subst hjk
    have hc := c.first_le_last
    have hfirst := hj.2.1.trans hk.2.1.symm
    omega

theorem covered_locate (hsize : size ≤ 2 ^ 64) (hpresent : present.Canonical)
    {located : List ByteRange} (h : l.locate size present = .ok located) {n : Nat}
    (hn : n * l.page < size) :
    (∃ r ∈ located, ∀ o, o / l.page = n → r.Has o) ↔ ∃ o, o / l.page = n ∧ ¬present.Has o := by
  have hpage := (fits_of_locate h).page_pos
  have hown : n * l.page / l.page = n := Nat.mul_div_cancel n hpage
  have hlocate := has_locate hsize hpresent h (o := n * l.page)
  unfold RangeSet.HasPage at hlocate
  rw [hown] at hlocate
  constructor
  · rintro ⟨r, hr, hall⟩
    obtain ⟨-, hlack⟩ := hlocate.mp ⟨r, hr, hall _ hown⟩
    obtain ⟨o, ho⟩ := Classical.not_forall.mp hlack
    exact ⟨o, Classical.not_imp.mp ho⟩
  · rintro ⟨o, ho, habsent⟩
    obtain ⟨r, hr, hro⟩ := hlocate.mpr ⟨hn, fun hall => habsent (hall o ho)⟩
    have hpages := (onPages_of_mem_locate hsize hpresent h hr).1
    exact ⟨r, hr, fun o' ho' => has_of_same_page hpage hpages (ho'.trans hown.symm) hro⟩

theorem locates_of_ok (hsize : size ≤ 2 ^ 64) (hpresent : present.Canonical)
    {located : List ByteRange} (h : l.locate size present = .ok located) :
    l.Locates size present located where
  ascending := ascending_locate hsize hpresent h
  onPages _ hr := (onPages_of_mem_locate hsize hpresent h hr).1
  inside _ hr := (onPages_of_mem_locate hsize hpresent h hr).2
  oneCell r hr := by
    obtain ⟨k, cell, hk, hrc⟩ := exists_cell_of_mem_locate hsize h hr
    obtain ⟨hfirst, hlast⟩ := cell_of_mem_lacking (fits_of_locate h) hpresent hk hrc
    exact hfirst.trans hlast.symm
  apart := apart_locate hsize hpresent h
  covered _ hn := covered_locate hsize hpresent h hn

theorem not_fits_iff : ¬l.Fits size ↔ l.page = 0 ∨ l.chunk = 0 ∨ ¬l.page ∣ size := by
  constructor
  · intro h
    by_cases hpage : l.page = 0
    · exact .inl hpage
    · by_cases hchunk : l.chunk = 0
      · exact .inr (.inl hchunk)
      · exact .inr (.inr fun heven => h ⟨by omega, by omega, heven⟩)
  · rintro (h | h | h) ⟨hpage, hchunk, heven⟩
    · omega
    · omega
    · exact h heven

/-- An image of any size that a word holds: nothing is located only if the layout does not fit, or
if there is no room for all cells, and else the located ranges are the pages that are not wholly
present.  No word overflows. -/
theorem locate_selects (hsize : size < 2 ^ 64) (hpresent : present.Canonical)
    (hcell : 0 < l.page → 0 < l.chunk → l.cellSize < 2 ^ 64) :
    ((∃ reason, l.locate? size present = some (.error (.invalidLayout reason))) ↔
        l.page = 0 ∨ l.chunk = 0 ∨ ¬l.page ∣ size) ∧
      (¬(l.page = 0 ∨ l.chunk = 0 ∨ ¬l.page ∣ size) →
        (size ≤ mostCells * l.cellSize → ∃ located, l.locate? size present = some (.ok located) ∧
          l.locate size present = .ok located ∧ l.Locates size present located) ∧
        (mostCells * l.cellSize < size → l.locate? size present = none)) := by
  rw [← not_fits_iff]
  by_cases hl : l.Fits size
  · have hcell := hcell hl.page_pos hl.chunk_pos
    have hok := locate_eq hl present
    have hroomy := locate?_eq hl hsize hcell hpresent
    have hcramped := locate?_eq_none hl hsize hcell present
    refine ⟨⟨fun ⟨_, h⟩ => ?_, fun hn => absurd hl hn⟩, fun _ => ⟨fun hroom => ?_, hcramped⟩⟩
    · by_cases hroom : size ≤ mostCells * l.cellSize
      · rw [hroomy hroom, hok] at h
        cases h
      · rw [hcramped (Nat.not_le.mp hroom)] at h
        cases h
    · exact ⟨_, (hroomy hroom).trans (congrArg some hok), hok,
        locates_of_ok (Nat.le_of_lt hsize) hpresent hok⟩
  · obtain ⟨f, hf⟩ := locate?_of_not_fits hl present
    exact ⟨⟨fun _ => hl, fun _ => ⟨f.reason, hf⟩⟩, fun hn => absurd hl hn⟩

/-- Fifteen pages of `2 ^ 60` bytes, three to a cell, are all that a word can count.  Some bytes
behind the image are said to be present.  In pages of one byte there are too many cells. -/
theorem locate_selects_wide :
    let page := 2 ^ 60
    let l : Layout := ⟨page, 2 * page + 1⟩
    let fine : Layout := ⟨1, 1⟩
    let present := RangeSet.ofRanges
      [⟨5, 2 * page + 8, by decide, by decide⟩, ⟨2 * page + 10, 15 * page - 2, by decide, by decide⟩,
        ⟨15 * page + 3, 2 ^ 64 - 1, by decide, by decide⟩]
    let first : ByteRange := ⟨0, page - 1, by decide, by decide⟩
    let third : ByteRange := ⟨2 * page, 3 * page - 1, by decide, by decide⟩
    let last : ByteRange := ⟨14 * page, 15 * page - 1, by decide, by decide⟩
    l.locate? (15 * page) present = some (.ok [first, third, last]) ∧
      l.Locates (15 * page) present [first, third, last] ∧
      fine.locate? (15 * page) present = none := by
  intro page l fine present first third last
  have hpresent : present.Canonical := RangeSet.canonical_ofRanges _
  obtain ⟨-, hfits⟩ := @locate_selects l (15 * page) present (by decide) hpresent
    (fun _ _ => by decide)
  obtain ⟨located, hwords, hok, hlocates⟩ := (hfits (by decide)).1 (by decide)
  have hranges : (l.locate (15 * page) present).toOption = some [first, third, last] := by
    decide +kernel
  rw [hok] at hranges
  injection hranges with hranges
  subst hranges
  obtain ⟨-, hfine⟩ := @locate_selects fine (15 * page) present (by decide) hpresent
    (fun _ _ => by decide)
  exact ⟨hwords, hlocates, (hfine (by decide)).2 (by decide)⟩

/-- In cells of one byte the largest image has no room, though its layout fits and all of it is
present. -/
theorem locate_without_room :
    let l : Layout := ⟨1, 1⟩
    let size := 2 ^ 64 - 1
    let present : RangeSet := ⟨[⟨0, 2 ^ 64 - 1, by decide, by decide⟩]⟩
    present.Canonical ∧ l.cellSize < 2 ^ 64 ∧ ¬(l.page = 0 ∨ l.chunk = 0 ∨ ¬l.page ∣ size) ∧
      ¬∃ located, l.locate? size present = some (.ok located) := by
  intro l size present
  have hl : l.Fits size := ⟨by decide, by decide, by decide⟩
  have hnone := locate?_eq_none hl (by decide) (by decide) present (by decide)
  refine ⟨by decide, by decide, by decide, ?_⟩
  rintro ⟨located, hlocated⟩
  rw [hnone] at hlocated
  cases hlocated

end Layout
end ImageUpload
