import ImageUpload.Layout.Words
import ImageUpload.Proofs.Layout
import ImageUpload.Proofs.Word

/-
Cutting an image into cells.

The cut goes on from offset to offset until nothing is left, and a cell that would reach past the
end of the image ends there.  So no offset overflows, not even where the end of a whole cell would,
and there is always a range to cut off: `partition?` comes to the cells of the image, in as many
rounds as room was made for, unless there is no room for so many.  The cells are the image, side by
side, `Tiles`.
-/

namespace ImageUpload
namespace Layout

variable {l : Layout} {size : Nat}

/-! ## Cell after cell -/

theorem cellSize?_eq (hl : l.Fits size) (hcell : l.cellSize < 2 ^ 64) :
    l.cellSize? = some l.cellSize := by
  -- a chunk is no longer than its cell
  have hchunk : l.chunk ≤ l.cellSize := by
    have hrest := Nat.mod_lt (l.chunk + l.page - 1) hl.page_pos
    have hsplit := Nat.div_add_mod (l.chunk + l.page - 1) l.page
    unfold cellSize
    rw [Nat.mul_comm]
    omega
  unfold cellSize?
  rw [Word.ceilDiv?_eq hl.page_pos (by omega), Option.bind_some]
  exact Word.mul?_eq hcell

theorem cellsFrom_of_le {cell size count start : Nat} (h : size ≤ start) :
    cellsFrom cell size count start = [] := by
  cases count with
  | zero => rfl
  | succ count =>
    rw [cellsFrom]
    exact dif_neg (by omega)

/-- With rounds enough each round cuts off a cell, and there is always a range to cut off. -/
theorem cutFrom?_eq {cell size rounds start : Nat} (hcell : 0 < cell) (hsize : size < 2 ^ 64)
    (hrounds : size ≤ start + rounds * cell) :
    cutFrom? cell size rounds start = some (.ok (cellsFrom cell size rounds start)) := by
  induction rounds generalizing start with
  | zero =>
    rw [cutFrom?, if_neg (by omega)]
    rfl
  | succ rounds ih =>
    rw [Nat.succ_mul] at hrounds
    rw [cutFrom?]
    by_cases hstart : start < size
    · have hlength : 0 < min cell (size - start) ∧ start + min cell (size - start) ≤ 2 ^ 64 := by
        omega
      have hends : start + min cell (size - start) - 1 = min (start + cell) size - 1 := by omega
      have hrest : cutFrom? cell size rounds (start + min cell (size - start)) =
          some (.ok (cellsFrom cell size rounds (start + cell))) := by
        by_cases hlast : start + cell ≤ size
        · rw [Nat.min_eq_left (by omega)]
          exact ih (by omega)
        · -- the last cell ends with the image
          rw [Nat.min_eq_right (by omega), ih (by omega), cellsFrom_of_le (by omega),
            cellsFrom_of_le (by omega)]
      rw [if_pos hstart, Word.sub?_eq (Nat.le_of_lt hstart), Option.bind_some, ByteRange.ofLength,
        dif_pos hlength]
      simp only
      rw [Word.add?_eq (by omega), Option.bind_some, hrest, cellsFrom,
        dif_pos ⟨hcell, hstart, Nat.le_of_lt hsize⟩]
      simp only [hends, Option.map_some, Except.map]
    · rw [if_neg hstart, cellsFrom_of_le (by omega)]

/-! ## Room for all cells -/

/-- As many cells as one piece of memory holds. -/
def mostCells : Nat := 2 ^ 59 - 1

theorem allocatable_iff {count : Nat} :
    Word.allocatable (cellMemory * count) = true ↔ count ≤ mostCells := by
  unfold Word.allocatable cellMemory mostCells
  rw [decide_eq_true_iff]
  omega

/-- So many cells are enough for an image exactly if they have as many bytes. -/
theorem count_le_iff {cell size n : Nat} (hcell : 0 < cell) :
    (size + cell - 1) / cell ≤ n ↔ size ≤ n * cell := by
  rw [← Nat.lt_succ_iff, Nat.div_lt_iff_lt_mul hcell, Nat.succ_mul]
  omega

theorem partition?_eq_ite (hl : l.Fits size) (hsize : size < 2 ^ 64) (hcell : l.cellSize < 2 ^ 64) :
    l.partition? size =
      if size ≤ mostCells * l.cellSize then some (.ok (l.cells size)) else none := by
  have hpos := cellSize_pos hl.page_pos hl.chunk_pos
  have henough := (count_le_iff (n := (size + l.cellSize - 1) / l.cellSize) hpos).mp (Nat.le_refl _)
  unfold partition?
  rw [fault?_eq_none_iff.mpr hl]
  simp only
  rw [cellSize?_eq hl hcell, Option.bind_some, Word.ceilDiv?_eq hpos hsize, Option.bind_some,
    cutFrom?_eq hpos hsize (by omega)]
  simp only [allocatable_iff, count_le_iff hpos]
  rfl

theorem partition?_of_not_fits (hl : ¬l.Fits size) :
    ∃ f, l.fault? size = some f ∧ l.partition? size = some (.error f.toError) := by
  cases hfault : l.fault? size with
  | none => exact absurd (fault?_eq_none_iff.mp hfault) hl
  | some f => exact ⟨f, rfl, by simp only [partition?, hfault]⟩

/-! ## Side by side -/

/-- Cells that make up an image, side by side from its first byte to its last. -/
structure Tiles (l : Layout) (size : Nat) (cells : List ByteRange) : Prop where
  empty : cells = [] ↔ size = 0
  head : ∀ c, cells.head? = some c → c.first = 0
  last : ∀ c, cells.getLast? = some c → c.last + 1 = size
  consecutive : ∀ k a b, cells[k]? = some a → cells[k + 1]? = some b → a.last + 1 = b.first
  place : ∀ k c, cells[k]? = some c → c.first = k * l.cellSize
  whole : ∀ c ∈ cells.dropLast, c.length = l.cellSize
  length_le : ∀ c ∈ cells, c.length ≤ l.cellSize
  aligned : ∀ c ∈ cells, c.isAligned l.page = true

theorem lt_length_cells (hl : l.Fits size) (hsize : size ≤ 2 ^ 64) (k : Nat) :
    k < (l.cells size).length ↔ k * l.cellSize < size := by
  constructor
  · intro hk
    exact ((getElem?_cells hl hsize).mp (List.getElem?_eq_getElem hk)).1
  · intro hk
    obtain ⟨c, hc⟩ := exists_isCell hl hsize hk
    exact (List.getElem?_eq_some_iff.mp ((getElem?_cells hl hsize).mpr hc)).1

theorem tiles_cells (hl : l.Fits size) (hsize : size ≤ 2 ^ 64) : l.Tiles size (l.cells size) := by
  have hget := fun k c => getElem?_cells hl hsize (k := k) (c := c)
  have hlength := lt_length_cells hl hsize
  have hnext : ∀ k, (k + 1) * l.cellSize = k * l.cellSize + l.cellSize := fun k => Nat.succ_mul ..
  have hends : ∀ k c, l.IsCell size k c → c.first + c.length = min ((k + 1) * l.cellSize) size :=
    fun k c hc => c.first_add_length.trans hc.2.2
  constructor
  case empty =>
    rw [← List.length_eq_zero_iff]
    have := hlength 0
    omega
  case head =>
    intro c hc
    rw [List.head?_eq_getElem?, hget] at hc
    have := hc.2.1
    omega
  case last =>
    intro c hc
    rw [List.getLast?_eq_getElem?, hget] at hc
    obtain ⟨hlt, -, hlast⟩ := hc
    have hpos := (hlength _).mpr hlt
    have hend := hlength (l.cells size).length
    rw [Nat.sub_add_cancel (by omega)] at hlast
    omega
  case consecutive =>
    intro k a b ha hb
    rw [hget] at ha hb
    have := ha.2.2
    have := hb.1
    have := hb.2.1
    omega
  case place =>
    intro k c hc
    exact ((hget k c).mp hc).2.1
  case whole =>
    intro c hc
    obtain ⟨k, hk⟩ := List.mem_iff_getElem?.mp hc
    rw [List.getElem?_dropLast] at hk
    split at hk
    next hbefore =>
      -- the cell after it begins in the image
      have hafter := (hlength (k + 1)).mp (by omega)
      have hc := (hget k c).mp hk
      have := hends k c hc
      have := hc.2.1
      have := hnext k
      omega
    next _ => exact nomatch hk
  case length_le =>
    intro c hc
    obtain ⟨k, hk⟩ := (mem_cells hl hsize).mp hc
    have := hends k c hk
    have := hk.2.1
    have := hnext k
    omega
  case aligned =>
    intro c hc
    obtain ⟨k, hk⟩ := (mem_cells hl hsize).mp hc
    exact ByteRange.isAligned_of_onPages hl.page_pos (hk.onPages hl)

/-- An image that has room for all its cells is cut into them without an overflow and without a
refusal, and the cut comes to an end.  The cells lie side by side, all but the last one are whole,
and none begins or ends within a page.  An image of more cells is not cut at all. -/
theorem partition_tiles (hl : l.Fits size) (hsize : size < 2 ^ 64) (hcell : l.cellSize < 2 ^ 64) :
    (size ≤ mostCells * l.cellSize →
      ∃ cells, l.partition? size = some (.ok cells) ∧ l.Tiles size cells) ∧
      (mostCells * l.cellSize < size → l.partition? size = none) := by
  have hcut := partition?_eq_ite hl hsize hcell
  refine ⟨fun hroom => ?_, fun hroom => ?_⟩
  · rw [if_pos hroom] at hcut
    exact ⟨l.cells size, hcut, tiles_cells hl (Nat.le_of_lt hsize)⟩
  · rw [if_neg (Nat.not_le.mpr hroom)] at hcut
    exact hcut

/-- The largest image, in pages of five bytes.  A whole cell in the place of the last one would end
past every word.  Of cells of thirty bytes there would be too many. -/
theorem partition_tiles_largest :
    let l : Layout := ⟨5, 2 ^ 62⟩
    let fine : Layout := ⟨5, 30⟩
    let size := 2 ^ 64 - 1
    let cells : List ByteRange := [⟨0, 2 ^ 62, by decide, by decide⟩,
      ⟨2 ^ 62 + 1, 2 ^ 63 + 1, by decide, by decide⟩,
      ⟨2 ^ 63 + 2, 2 ^ 63 + 2 ^ 62 + 2, by decide, by decide⟩,
      ⟨2 ^ 63 + 2 ^ 62 + 3, 2 ^ 64 - 2, by decide, by decide⟩]
    l.Fits size ∧ l.cellSize = 2 ^ 62 + 1 ∧ 2 ^ 64 < 4 * l.cellSize ∧
      l.partition? size = some (.ok cells) ∧ l.Tiles size cells ∧ fine.partition? size = none := by
  intro l fine size cells
  have hl : l.Fits size := ⟨by decide, by decide, by decide⟩
  have hfine : fine.Fits size := ⟨by decide, by decide, by decide⟩
  obtain ⟨cells', hcut, htiles⟩ := (partition_tiles hl (by decide) (by decide)).1 (by decide)
  have hcells : (l.partition? size).map Except.toOption = some (some cells) := by decide +kernel
  rw [hcut] at hcells
  cases hcells
  exact ⟨hl, by decide, by decide, hcut, htiles,
    (partition_tiles hfine (by decide) (by decide)).2 (by decide)⟩

/-- In cells of one byte the largest image has no room, though its layout fits. -/
theorem partition_without_room :
    let l : Layout := ⟨1, 1⟩
    let size := 2 ^ 64 - 1
    l.Fits size ∧ size < 2 ^ 64 ∧ l.cellSize < 2 ^ 64 ∧
      ¬∃ cells, l.partition? size = some (.ok cells) := by
  intro l size
  have hl : l.Fits size := ⟨by decide, by decide, by decide⟩
  have hcut := partition?_eq_ite hl (by decide) (by decide)
  rw [if_neg (by decide)] at hcut
  refine ⟨hl, by decide, by decide, ?_⟩
  rintro ⟨cells, hcells⟩
  rw [hcut] at hcells
  cases hcells

end Layout
end ImageUpload
