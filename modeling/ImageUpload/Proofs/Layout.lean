import ImageUpload.Layout
import ImageUpload.Proofs.RangeSet.Carve

/-
The grid and the pages that an image still lacks.

The main statement is `has_locate`: the located ranges hold a byte exactly if its page
is not wholly present.  Everything before it is about one cell.  The ends of a cell lie
on pages, so widening a piece to whole pages never meets the border of its cell, and
the `max` and `min` of `widen` have nothing to do.
-/

namespace ImageUpload

/-- Beginning and end lie on boundaries between pages. -/
def ByteRange.OnPages (r : ByteRange) (page : Nat) : Prop :=
  page ∣ r.first ∧ page ∣ r.last + 1

theorem ByteRange.isAligned_of_onPages {range : ByteRange} {page : Nat} (hpage : 0 < page)
    (h : range.OnPages page) : range.isAligned page = true := by
  obtain ⟨hfirst, hlast⟩ := h
  have hend : (range.last + 1) % 2 ^ 64 % page = 0 := by
    have hlt := range.last_lt
    by_cases hmax : range.last + 1 = 2 ^ 64
    · rw [hmax, Nat.mod_self, Nat.zero_mod]
    · have hword : (range.last + 1) % 2 ^ 64 = range.last + 1 := Nat.mod_eq_of_lt (by omega)
      rw [hword]
      exact Nat.mod_eq_zero_of_dvd hlast
  unfold isAligned
  rw [decide_eq_true hpage, decide_eq_true (Nat.mod_eq_zero_of_dvd hfirst), decide_eq_true hend]
  rfl

/-- The whole page that an offset lies on is in the set. -/
def RangeSet.HasPage (s : RangeSet) (page o : Nat) : Prop :=
  ∀ o', o' / page = o / page → s.Has o'

namespace Layout

/-! ## Whole pages -/

/-- An offset and a boundary before it have the whole page between them. -/
theorem le_page_start {page n o : Nat} (hp : 0 < page) (hn : page ∣ n) (h : n ≤ o) :
    n ≤ o / page * page := by
  obtain ⟨k, rfl⟩ := hn
  rw [Nat.mul_comm page k] at h ⊢
  exact Nat.mul_le_mul_right page ((Nat.le_div_iff_mul_le hp).mpr h)

theorem page_end_le {page n o : Nat} (hp : 0 < page) (hn : page ∣ n) (h : o < n) :
    (o / page + 1) * page ≤ n := by
  obtain ⟨k, rfl⟩ := hn
  rw [Nat.mul_comm page k] at h ⊢
  exact Nat.mul_le_mul_right page ((Nat.div_lt_iff_lt_mul hp).mpr h)

theorem page_start_le (page o : Nat) : o / page * page ≤ o := Nat.div_mul_le_self o page

theorem lt_page_end {page : Nat} (hp : 0 < page) (o : Nat) : o < (o / page + 1) * page :=
  (Nat.div_lt_iff_lt_mul hp).mp (Nat.lt_succ_self _)

/-- A range on pages holds a page wholly or not at all. -/
theorem has_of_same_page {r : ByteRange} {page o o' : Nat} (hp : 0 < page) (hr : r.OnPages page)
    (h : o' / page = o / page) (ho : r.Has o) : r.Has o' := by
  obtain ⟨hfirst, hlast⟩ := ho
  have hlow := le_page_start hp hr.1 hfirst
  have hhigh := page_end_le hp hr.2 (Nat.lt_succ_of_le hlast)
  rw [← h] at hlow hhigh
  have := page_start_le page o'
  have := lt_page_end hp o'
  exact ⟨by omega, by omega⟩

/-! ## Layouts that fit -/

/-- The layout fits an image of `size` bytes. -/
structure Fits (l : Layout) (size : Nat) : Prop where
  page_pos : 0 < l.page
  chunk_pos : 0 < l.chunk
  even : l.page ∣ size

theorem fault?_eq_none_iff {l : Layout} {size : Nat} : l.fault? size = none ↔ l.Fits size := by
  unfold fault?
  split
  next h => exact ⟨nofun, fun hf => absurd hf.page_pos (by omega)⟩
  next hp =>
    split
    next h => exact ⟨nofun, fun hf => absurd hf.chunk_pos (by omega)⟩
    next hc =>
      split
      next h =>
        exact ⟨nofun,
          fun hf => absurd (Nat.mod_eq_zero_of_dvd hf.even) h⟩
      next h =>
        have h0 : size % l.page = 0 := Decidable.not_not.mp h
        exact ⟨fun _ => ⟨Nat.pos_of_ne_zero hp, Nat.pos_of_ne_zero hc, Nat.dvd_of_mod_eq_zero h0⟩,
          fun _ => rfl⟩

theorem page_dvd_cellSize (l : Layout) : l.page ∣ l.cellSize := Nat.dvd_mul_left _ _

theorem cellSize_pos {l : Layout} (hp : 0 < l.page) (hc : 0 < l.chunk) : 0 < l.cellSize := by
  have hone : 0 < (l.chunk + l.page - 1) / l.page := Nat.div_pos (by omega) hp
  exact Nat.mul_pos hone hp

/-! ## Cells -/

/-- The cell number `k` of an image. -/
def IsCell (l : Layout) (size k : Nat) (c : ByteRange) : Prop :=
  k * l.cellSize < size ∧ c.first = k * l.cellSize ∧ c.last + 1 = min ((k + 1) * l.cellSize) size

theorem exists_isCell {l : Layout} {size k : Nat} (hl : l.Fits size) (hsize : size ≤ 2 ^ 64)
    (hk : k * l.cellSize < size) : ∃ c, l.IsCell size k c := by
  have hcell := cellSize_pos hl.page_pos hl.chunk_pos
  have hnext : (k + 1) * l.cellSize = k * l.cellSize + l.cellSize := Nat.succ_mul ..
  refine ⟨⟨k * l.cellSize, min ((k + 1) * l.cellSize) size - 1, by omega, by omega⟩, hk, rfl, ?_⟩
  show min ((k + 1) * l.cellSize) size - 1 + 1 = _
  omega

/-- Cells that are cut off from the cell number `k` on have their numbers in order. -/
theorem getElem?_cellsFrom {cell size count k i : Nat} {c : ByteRange} (hcell : 0 < cell)
    (hsize : size ≤ 2 ^ 64) :
    (cellsFrom cell size count (k * cell))[i]? = some c ↔
      i < count ∧ (k + i) * cell < size ∧ c.first = (k + i) * cell ∧
        c.last + 1 = min ((k + i + 1) * cell) size := by
  induction count generalizing k i with
  | zero =>
    rw [cellsFrom]
    exact ⟨nofun, fun h => absurd h.1 (Nat.not_lt_zero i)⟩
  | succ count ih =>
    have hstep : (k + 1) * cell = k * cell + cell := Nat.succ_mul k cell
    rw [cellsFrom]
    split
    next h =>
      cases i with
      | zero =>
        rw [List.getElem?_cons_zero, Option.some_inj, Nat.add_zero, hstep]
        constructor
        · rintro rfl
          refine ⟨Nat.succ_pos count, h.2.1, rfl, ?_⟩
          show min (k * cell + cell) size - 1 + 1 = _
          omega
        · rintro ⟨-, -, hfirst, hlast⟩
          refine (ByteRange.eq_of_ends hfirst ?_).symm
          show c.last = min (k * cell + cell) size - 1
          omega
      | succ i =>
        have hnumber : k + 1 + i = k + (i + 1) := by omega
        rw [List.getElem?_cons_succ, ← hstep, ih, hnumber, Nat.succ_lt_succ_iff]
    next h =>
      refine ⟨nofun, fun ⟨_, hlt, _⟩ => ?_⟩
      -- a later cell would begin past the end of the image
      have hmono : k * cell ≤ (k + i) * cell := Nat.mul_le_mul_right cell (Nat.le_add_right k i)
      exact absurd ⟨hcell, by omega, hsize⟩ h

/-- The cells of an image stand in the order of their numbers. -/
theorem getElem?_cells {l : Layout} {size k : Nat} {c : ByteRange} (hl : l.Fits size)
    (hsize : size ≤ 2 ^ 64) : (l.cells size)[k]? = some c ↔ l.IsCell size k c := by
  have hcell := cellSize_pos hl.page_pos hl.chunk_pos
  have hfrom : (cellsFrom l.cellSize size ((size + l.cellSize - 1) / l.cellSize)
      (0 * l.cellSize))[k]? = some c ↔ _ := getElem?_cellsFrom hcell hsize
  rw [Nat.zero_mul, Nat.zero_add] at hfrom
  unfold cells
  rw [hfrom]
  refine and_iff_right_of_imp fun h => ?_
  rw [Nat.lt_iff_add_one_le, Nat.le_div_iff_mul_le hcell, Nat.succ_mul]
  omega

theorem mem_cells {l : Layout} {size : Nat} {c : ByteRange} (hl : l.Fits size)
    (hsize : size ≤ 2 ^ 64) : c ∈ l.cells size ↔ ∃ k, l.IsCell size k c := by
  rw [List.mem_iff_getElem?]
  exact exists_congr fun k => getElem?_cells hl hsize

theorem ascending_cellsFrom (cell size count start : Nat) :
    (cellsFrom cell size count start).Pairwise (fun a b => a.last < b.first) ∧
      ∀ c ∈ cellsFrom cell size count start, start ≤ c.first := by
  induction count generalizing start with
  | zero => exact ⟨List.Pairwise.nil, fun c h => absurd h List.not_mem_nil⟩
  | succ count ih =>
    rw [cellsFrom]
    split
    next h =>
      obtain ⟨hpair, hlow⟩ := ih (start + cell)
      refine ⟨List.pairwise_cons.mpr ⟨fun c hc => ?_, hpair⟩, fun c hc => ?_⟩
      · have := hlow c hc
        show min (start + cell) size - 1 < c.first
        omega
      · rcases List.mem_cons.mp hc with rfl | hc
        · exact Nat.le_refl start
        · have := hlow c hc
          omega
    next _ => exact ⟨List.Pairwise.nil, fun c h => absurd h List.not_mem_nil⟩

theorem IsCell.onPages {l : Layout} {size k : Nat} {c : ByteRange} (hl : l.Fits size)
    (hc : l.IsCell size k c) : c.OnPages l.page := by
  obtain ⟨_, hfirst, hlast⟩ := hc
  have hmul : ∀ j, l.page ∣ j * l.cellSize := fun j =>
    Nat.dvd_trans l.page_dvd_cellSize (Nat.dvd_mul_left _ j)
  refine ⟨hfirst ▸ hmul k, ?_⟩
  rw [hlast]
  rcases Nat.le_total ((k + 1) * l.cellSize) size with h | h
  · rw [Nat.min_eq_left h]
    exact hmul (k + 1)
  · rw [Nat.min_eq_right h]
    exact hl.even

theorem exists_cell {l : Layout} {size o : Nat} (hl : l.Fits size) (hsize : size ≤ 2 ^ 64)
    (ho : o < size) : ∃ k c, l.IsCell size k c ∧ c.Has o := by
  have hcell := cellSize_pos hl.page_pos hl.chunk_pos
  have hlow := page_start_le l.cellSize o
  have hhigh := lt_page_end hcell o
  obtain ⟨c, hc⟩ := exists_isCell hl hsize (k := o / l.cellSize) (by omega)
  have hfirst := hc.2.1
  have hlast := hc.2.2
  exact ⟨o / l.cellSize, c, hc, by omega, by omega⟩

/-! ## One cell -/

/-- Widening never meets the border of a cell that lies on pages. -/
theorem widen_eq {l : Layout} {cell piece : ByteRange} (hp : 0 < l.page) (hc : cell.OnPages l.page)
    (hfirst : cell.first ≤ piece.first) (hlast : piece.last ≤ cell.last) :
    ∃ w, l.widen cell piece = some w ∧ w.first = piece.first / l.page * l.page ∧
      w.last + 1 = (piece.last / l.page + 1) * l.page := by
  have hlow := le_page_start hp hc.1 hfirst
  have hhigh := page_end_le hp hc.2 (Nat.lt_succ_of_le hlast)
  have hstart := page_start_le l.page piece.first
  have hend := lt_page_end hp piece.last
  have hpiece := piece.first_le_last
  have hcell := cell.last_lt
  have hmax : max (piece.first / l.page * l.page) cell.first = piece.first / l.page * l.page := by
    omega
  have hmin : min ((piece.last / l.page + 1) * l.page - 1) cell.last =
      (piece.last / l.page + 1) * l.page - 1 := by
    omega
  unfold widen
  simp only [hmax, hmin]
  have hok : piece.first / l.page * l.page ≤ (piece.last / l.page + 1) * l.page - 1 ∧
      (piece.last / l.page + 1) * l.page - 1 < 2 ^ 64 := by
    omega
  refine ⟨_, dif_pos hok, rfl, ?_⟩
  show (piece.last / l.page + 1) * l.page - 1 + 1 = _
  omega

theorem has_widen {l : Layout} {cell piece w : ByteRange} (hp : 0 < l.page)
    (hc : cell.OnPages l.page) (hfirst : cell.first ≤ piece.first) (hlast : piece.last ≤ cell.last)
    (hw : l.widen cell piece = some w) {o : Nat} :
    w.Has o ↔ ∃ o', o' / l.page = o / l.page ∧ piece.Has o' := by
  obtain ⟨w', hw', hwf, hwl⟩ := widen_eq hp hc hfirst hlast
  rw [hw] at hw'
  injection hw' with hw'
  subst hw'
  have hbegin : w.first ≤ o ↔ piece.first / l.page ≤ o / l.page := by
    rw [hwf]
    exact (Nat.le_div_iff_mul_le hp).symm
  have hend : o ≤ w.last ↔ o / l.page ≤ piece.last / l.page := by
    rw [← Nat.lt_succ_iff, Nat.succ_eq_add_one, hwl, ← Nat.div_lt_iff_lt_mul hp, Nat.lt_succ_iff]
  show w.first ≤ o ∧ o ≤ w.last ↔ _
  rw [hbegin, hend]
  have hpiece := piece.first_le_last
  constructor
  · rintro ⟨h₁, h₂⟩
    -- the byte of the piece on that page which is nearest to `o`
    by_cases hlow : o < piece.first
    · have := Nat.div_le_div_right (c := l.page) (Nat.le_of_lt hlow)
      exact ⟨piece.first, by omega, piece.has_first⟩
    · by_cases hhigh : piece.last < o
      · have := Nat.div_le_div_right (c := l.page) (Nat.le_of_lt hhigh)
        exact ⟨piece.last, by omega, piece.has_last⟩
      · exact ⟨o, rfl, by omega, by omega⟩
  · rintro ⟨o', heq, ho'⟩
    rw [← heq]
    exact ⟨Nat.div_le_div_right ho'.1, Nat.div_le_div_right ho'.2⟩

theorem exists_piece_of_mem_widened {l : Layout} {present : RangeSet} {cell w : ByteRange}
    (hp : 0 < l.page) (h : present.Canonical) (hc : cell.OnPages l.page)
    (hw : w ∈ (present.carve cell).filterMap (l.widen cell)) :
    ∃ p ∈ present.carve cell, l.widen cell p = some w ∧ w.OnPages l.page ∧
      cell.first ≤ w.first ∧ w.last ≤ cell.last := by
  obtain ⟨p, hpm, hwp⟩ := List.mem_filterMap.mp hw
  obtain ⟨hfirst, hlast⟩ := RangeSet.within_of_mem_carve h hpm
  obtain ⟨w', hw', hwf, hwl⟩ := widen_eq hp hc hfirst hlast
  rw [hwp] at hw'
  injection hw' with hw'
  subst hw'
  refine ⟨p, hpm, hwp, ⟨hwf ▸ Nat.dvd_mul_left _ _, hwl ▸ Nat.dvd_mul_left _ _⟩, ?_, ?_⟩
  · rw [hwf]
    exact le_page_start hp hc.1 hfirst
  · have := page_end_le hp hc.2 (Nat.lt_succ_of_le hlast)
    omega

theorem has_lacking {l : Layout} {present : RangeSet} {cell : ByteRange} (hp : 0 < l.page)
    (h : present.Canonical) (hc : cell.OnPages l.page) {o : Nat} :
    (∃ r ∈ l.lacking present cell, r.Has o) ↔ cell.Has o ∧ ¬present.HasPage l.page o := by
  show (RangeSet.ofRanges _).Has o ↔ _
  rw [RangeSet.has_ofRanges]
  constructor
  · rintro ⟨w, hw, hwo⟩
    obtain ⟨p, hpm, hwp, _, hfirst, hlast⟩ := exists_piece_of_mem_widened hp h hc hw
    obtain ⟨hpf, hpl⟩ := RangeSet.within_of_mem_carve h hpm
    obtain ⟨o', heq, ho'⟩ := (has_widen hp hc hpf hpl hwp).mp hwo
    obtain ⟨_, habsent⟩ := (RangeSet.has_carve h).mp ⟨p, hpm, ho'⟩
    exact ⟨⟨Nat.le_trans hfirst hwo.1, Nat.le_trans hwo.2 hlast⟩, fun hall => habsent (hall o' heq)⟩
  · rintro ⟨hco, hnot⟩
    obtain ⟨o', ho'⟩ := Classical.not_forall.mp hnot
    obtain ⟨heq, habsent⟩ := Classical.not_imp.mp ho'
    have hco' : cell.Has o' := has_of_same_page hp hc heq hco
    obtain ⟨p, hpm, hpo⟩ := (RangeSet.has_carve h).mpr ⟨hco', habsent⟩
    obtain ⟨hpf, hpl⟩ := RangeSet.within_of_mem_carve h hpm
    obtain ⟨w, hw, _⟩ := widen_eq hp hc hpf hpl
    exact ⟨w, List.mem_filterMap.mpr ⟨p, hpm, hw⟩, (has_widen hp hc hpf hpl hw).mpr ⟨o', heq, hpo⟩⟩

theorem within_of_mem_lacking {l : Layout} {present : RangeSet} {cell r : ByteRange}
    (hp : 0 < l.page) (h : present.Canonical) (hc : cell.OnPages l.page)
    (hr : r ∈ l.lacking present cell) :
    r.OnPages l.page ∧ cell.first ≤ r.first ∧ r.last ≤ cell.last := by
  obtain ⟨⟨a, ha, haf⟩, ⟨b, hb, hbl⟩⟩ := RangeSet.ends_of_mem_ofRanges hr
  obtain ⟨_, _, _, hap, hafirst, _⟩ := exists_piece_of_mem_widened hp h hc ha
  obtain ⟨_, _, _, hbp, _, hblast⟩ := exists_piece_of_mem_widened hp h hc hb
  exact ⟨⟨haf ▸ hap.1, hbl ▸ hbp.2⟩, haf ▸ hafirst, hbl ▸ hblast⟩

/-! ## The whole image -/

theorem locate_eq {l : Layout} {size : Nat} (hl : l.Fits size) (present : RangeSet) :
    l.locate size present = .ok ((l.cells size).flatMap (l.lacking present)) := by
  unfold locate
  rw [fault?_eq_none_iff.mpr hl]

theorem fits_of_locate {l : Layout} {size : Nat} {present : RangeSet} {located : List ByteRange}
    (h : l.locate size present = .ok located) : l.Fits size := by
  unfold locate at h
  split at h
  next _ => exact nomatch h
  next hf => exact fault?_eq_none_iff.mp hf

variable {l : Layout} {size : Nat} {present : RangeSet} {located : List ByteRange}

theorem exists_cell_of_mem_locate (hsize : size ≤ 2 ^ 64)
    (h : l.locate size present = .ok located) {r : ByteRange} (hr : r ∈ located) :
    ∃ k cell, l.IsCell size k cell ∧ r ∈ l.lacking present cell := by
  have hl := fits_of_locate h
  rw [locate_eq hl] at h
  injection h with h
  rw [← h] at hr
  obtain ⟨cell, hcell, hr⟩ := List.mem_flatMap.mp hr
  obtain ⟨k, hk⟩ := (mem_cells hl hsize).mp hcell
  exact ⟨k, cell, hk, hr⟩

/-- A byte is located exactly if its page is in the image and not wholly present. -/
theorem has_locate (hsize : size ≤ 2 ^ 64) (hpresent : present.Canonical)
    (h : l.locate size present = .ok located) {o : Nat} :
    (∃ r ∈ located, r.Has o) ↔ o < size ∧ ¬present.HasPage l.page o := by
  have hl := fits_of_locate h
  constructor
  · rintro ⟨r, hr, hro⟩
    obtain ⟨k, cell, hk, hr⟩ := exists_cell_of_mem_locate hsize h hr
    obtain ⟨hco, hnot⟩ := (has_lacking hl.page_pos hpresent (hk.onPages hl)).mp ⟨r, hr, hro⟩
    have hend := hk.2.2
    have := hco.2
    exact ⟨by omega, hnot⟩
  · rintro ⟨ho, hnot⟩
    obtain ⟨k, cell, hk, hco⟩ := exists_cell hl hsize ho
    obtain ⟨r, hr, hro⟩ := (has_lacking hl.page_pos hpresent (hk.onPages hl)).mpr ⟨hco, hnot⟩
    rw [locate_eq hl] at h
    injection h with h
    rw [← h]
    exact ⟨r, List.mem_flatMap.mpr ⟨cell, (mem_cells hl hsize).mpr ⟨k, hk⟩, hr⟩, hro⟩

theorem onPages_of_mem_locate (hsize : size ≤ 2 ^ 64) (hpresent : present.Canonical)
    (h : l.locate size present = .ok located) {r : ByteRange} (hr : r ∈ located) :
    r.OnPages l.page ∧ r.last < size := by
  have hl := fits_of_locate h
  obtain ⟨k, cell, hk, hrc⟩ := exists_cell_of_mem_locate hsize h hr
  have hend := hk.2.2
  obtain ⟨hpages, _, hlast⟩ :=
    within_of_mem_lacking hl.page_pos hpresent (hk.onPages hl) hrc
  exact ⟨hpages, by omega⟩

theorem ascending_locate (hsize : size ≤ 2 ^ 64) (hpresent : present.Canonical)
    (h : l.locate size present = .ok located) :
    located.Pairwise (fun a b => a.last < b.first) := by
  have hl := fits_of_locate h
  have hcells : ∀ cell ∈ l.cells size, cell.OnPages l.page := by
    intro cell hcell
    obtain ⟨k, hk⟩ := (mem_cells hl hsize).mp hcell
    exact hk.onPages hl
  have hpair : (l.cells size).Pairwise (fun a b => a.last < b.first) :=
    (ascending_cellsFrom _ _ _ _).1
  rw [locate_eq hl] at h
  injection h with h
  rw [← h, List.pairwise_flatMap]
  constructor
  · intro cell _
    exact (RangeSet.canonical_ofRanges _).imp fun hab => by omega
  · refine hpair.imp_of_mem fun ha hb hab r hr s hs => ?_
    obtain ⟨_, _, hr⟩ := within_of_mem_lacking hl.page_pos hpresent (hcells _ ha) hr
    obtain ⟨_, hs, _⟩ := within_of_mem_lacking hl.page_pos hpresent (hcells _ hb) hs
    omega

end Layout
end ImageUpload
