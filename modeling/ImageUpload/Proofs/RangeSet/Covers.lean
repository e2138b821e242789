import ImageUpload.Proofs.RangeSet.InPlace

/-
Whether a set has all bytes of a range.

Only one run is looked at, the first that does not end before the range begins.  That is enough
because of the gaps: the byte after a run is never in a canonical set, so a range of present bytes
cannot leave the run that it begins in.
-/

namespace ImageUpload

theorem ByteRange.contains_iff {r s : ByteRange} :
    r.contains s = true ↔ r.first ≤ s.first ∧ s.last ≤ r.last := by
  simp [contains]

namespace RangeSet

/-- A canonical set whose first run does not end before a range has the bytes of the range exactly
if that run has them. -/
theorem Canonical.contains_iff {run r : ByteRange} {l : List ByteRange}
    (h : Canonical ⟨run :: l⟩) (hrun : r.first ≤ run.last) :
    run.contains r = true ↔ ∀ o, r.Has o → Has ⟨run :: l⟩ o := by
  rw [ByteRange.contains_iff]
  constructor
  · rintro ⟨hfirst, hlast⟩ o ⟨hlow, hhigh⟩
    exact has_cons.mpr (.inl ⟨by omega, by omega⟩)
  · intro hall
    constructor
    · rcases has_cons.mp (hall r.first r.has_first) with hin | htail
      · exact hin.1
      · have := h.lt_of_has_tail htail
        omega
    · -- otherwise the byte after the run would be in the range, and it lies in a gap
      by_cases hpast : run.last < r.last
      · have hafter : r.Has (run.last + 1) := ⟨by omega, hpast⟩
        rcases has_cons.mp (hall _ hafter) with hin | htail
        · have := hin.2
          omega
        · have := h.lt_of_has_tail htail
          omega
      · omega

theorem covers_iff {s : RangeSet} (h : s.Canonical) (r : ByteRange) :
    s.covers r = true ↔ ∀ o, r.Has o → s.Has o := by
  have hbehind := fun a ha => le_last_of_mem_dropWhile h (o := r.first) (a := a) ha
  have hcanonical : Canonical ⟨s.ranges.dropWhile fun a => decide (a.last < r.first)⟩ :=
    h.sublist (List.dropWhile_sublist _)
  have hbytes : (∀ o, r.Has o → s.Has o) ↔
      ∀ o, r.Has o → Has ⟨s.ranges.dropWhile fun a => decide (a.last < r.first)⟩ o :=
    forall_congr' fun o => imp_congr_right fun ho => (has_dropWhile ho.1).symm
  rw [hbytes]
  unfold covers
  generalize s.ranges.dropWhile (fun a => decide (a.last < r.first)) = behind at hbehind hcanonical ⊢
  cases behind with
  | nil => exact ⟨nofun, fun hall => absurd (hall r.first r.has_first) (not_has_empty _)⟩
  | cons run rest => exact hcanonical.contains_iff (hbehind run List.mem_cons_self)

/-- `covers` with the run found by halves. -/
def coversInPlace (s : RangeSet) (r : ByteRange) : Bool :=
  s.ranges[search s.ranges r.first]?.any (·.contains r)

theorem coversInPlace_eq {s : RangeSet} (h : s.Canonical) (r : ByteRange) :
    s.coversInPlace r = s.covers r := by
  unfold coversInPlace covers
  rw [← drop_search h, List.head?_drop]

/-- The one run that is looked at, whether it is found from the front or by halves, decides if a
set has every byte of a range. -/
theorem covers_decides {s : RangeSet} (h : s.Canonical) (r : ByteRange) :
    (s.coversInPlace r = true ↔ ∀ o, r.Has o → s.Has o) ∧
      (s.covers r = true ↔ ∀ o, r.Has o → s.Has o) :=
  ⟨by rw [coversInPlace_eq h, covers_iff h], covers_iff h r⟩

/-- A range up to the largest offset that ends a run, and one that leaves a run for the next but
one. -/
theorem covers_decides_across :
    let s : RangeSet := ⟨[⟨0, 99, by decide, by decide⟩, ⟨101, 149, by decide, by decide⟩,
      ⟨200, 2 ^ 64 - 1, by decide, by decide⟩]⟩
    let top : ByteRange := ⟨2 ^ 64 - 5, 2 ^ 64 - 1, by decide, by decide⟩
    let across : ByteRange := ⟨99, 200, by decide, by decide⟩
    s.Canonical ∧ s.coversInPlace top = true ∧ (∀ o, top.Has o → s.Has o) ∧
      s.coversInPlace across = false ∧ ¬∀ o, across.Has o → s.Has o := by
  intro s top across
  have hs : s.Canonical := by decide
  have htop : s.coversInPlace top = true := by decide
  have hacross : s.coversInPlace across = false := by decide
  refine ⟨hs, htop, (covers_decides hs top).1.mp htop, hacross, fun hall => ?_⟩
  rw [(covers_decides hs across).1.mpr hall] at hacross
  exact nomatch hacross

end RangeSet
end ImageUpload
