import ImageUpload.Proofs.RangeSet.Insert

/-
What a set leaves of a range.

`cut` walks the holes from the front, so each hole but the first is past everything
that was kept before it.  The invariant is that no hole ends before the rest of the
range begins.
-/

namespace ImageUpload

namespace ByteRange

theorem has_before {r : ByteRange} {n o : Nat} (hn : n ≤ r.last) :
    (∃ p ∈ r.before n, p.Has o) ↔ r.Has o ∧ o < n := by
  unfold before
  split
  next h =>
    simp only [List.mem_singleton, exists_eq_left]
    show r.first ≤ o ∧ o ≤ n - 1 ↔ (r.first ≤ o ∧ o ≤ r.last) ∧ o < n
    omega
  next h =>
    have hle : n ≤ r.first := by omega
    constructor
    · rintro ⟨p, hp, _⟩
      exact absurd hp List.not_mem_nil
    · rintro ⟨hro, hlt⟩
      have := hro.1
      omega

end ByteRange

namespace RangeSet

theorem has_cut {r : ByteRange} {holes : List ByteRange} {o : Nat} (hc : Canonical ⟨holes⟩)
    (hends : ∀ a ∈ holes, r.first ≤ a.last) :
    (∃ p ∈ cut r holes, p.Has o) ↔ r.Has o ∧ ¬Has ⟨holes⟩ o := by
  induction holes generalizing r with
  | nil =>
    simp only [cut, List.mem_singleton, exists_eq_left]
    exact ⟨fun h => ⟨h, not_has_empty o⟩, fun h => h.1⟩
  | cons hole rest ih =>
    have hle := hole.first_le_last
    have hhole := hends hole List.mem_cons_self
    have htail : Has ⟨rest⟩ o → hole.last + 2 ≤ o := hc.lt_of_has_tail
    rw [cut, has_cons]
    split
    next hlt =>
      -- the range ends before the first hole
      simp only [List.mem_singleton, exists_eq_left]
      refine ⟨fun h => ⟨h, ?_⟩, fun h => h.1⟩
      have := h.2
      rintro (hh | hh)
      · have := hh.1
        omega
      · have := htail hh
        omega
    next hge =>
      have hfirst : hole.first ≤ r.last := by omega
      simp only [List.mem_append, or_and_right, exists_or, ByteRange.has_before hfirst]
      split
      next hlast =>
        have hrest := ih (r := ⟨hole.last + 1, r.last, hlast, r.last_lt⟩) hc.tail fun a ha => by
          have := (List.pairwise_cons.mp hc).1 a ha
          have := a.first_le_last
          show hole.last + 1 ≤ a.last
          omega
        rw [hrest]
        constructor
        · rintro (⟨hr, hlt⟩ | ⟨hr, hno⟩)
          · refine ⟨hr, ?_⟩
            rintro (hh | hh)
            · have := hh.1
              omega
            · have := htail hh
              omega
          · have hlo : hole.last + 1 ≤ o := hr.1
            refine ⟨⟨by omega, hr.2⟩, ?_⟩
            rintro (hh | hh)
            · have := hh.2
              omega
            · exact hno hh
        · rintro ⟨hr, hno⟩
          by_cases hlt : o < hole.first
          · exact Or.inl ⟨hr, hlt⟩
          · have hnot : ¬(hole.first ≤ o ∧ o ≤ hole.last) := fun h => hno (Or.inl h)
            refine Or.inr ⟨⟨?_, hr.2⟩, fun h => hno (Or.inr h)⟩
            show hole.last + 1 ≤ o
            omega
      next hlast =>
        -- the hole reaches past the end of the range
        constructor
        · rintro (⟨hr, hlt⟩ | ⟨p, hp, _⟩)
          · refine ⟨hr, ?_⟩
            rintro (hh | hh)
            · have := hh.1
              omega
            · have := htail hh
              omega
          · exact absurd hp List.not_mem_nil
        · rintro ⟨hr, hno⟩
          have hnot : ¬(hole.first ≤ o ∧ o ≤ hole.last) := fun h => hno (Or.inl h)
          have := hr.2
          exact Or.inl ⟨hr, by omega⟩

/-- The runs that a search passes do not meet the range. -/
theorem has_dropWhile {s : RangeSet} {r : ByteRange} {o : Nat} (ho : r.first ≤ o) :
    Has ⟨s.ranges.dropWhile (fun a => decide (a.last < r.first))⟩ o ↔ s.Has o := by
  have hsplit : s.Has o ↔ Has ⟨s.ranges.takeWhile (fun a => decide (a.last < r.first))⟩ o ∨
      Has ⟨s.ranges.dropWhile (fun a => decide (a.last < r.first))⟩ o := by
    rw [← has_append, List.takeWhile_append_dropWhile]
  rw [hsplit]
  refine (or_iff_right ?_).symm
  rintro ⟨a, ha, hao⟩
  have := last_lt_of_mem_takeWhile ha
  have := hao.2
  omega

/-- The parts that are left hold exactly the bytes of the range that are absent. -/
theorem has_carve {s : RangeSet} (h : s.Canonical) {r : ByteRange} {o : Nat} :
    (∃ p ∈ s.carve r, p.Has o) ↔ r.Has o ∧ ¬s.Has o := by
  have hdrop : Canonical ⟨s.ranges.dropWhile (fun a => decide (a.last < r.first))⟩ :=
    h.sublist (List.dropWhile_sublist _)
  have hcut := has_cut (r := r) (o := o) hdrop fun a ha => le_last_of_mem_dropWhile h ha
  unfold carve
  rw [hcut]
  exact and_congr_right fun hr => not_congr (has_dropWhile hr.1)

theorem within_of_mem_carve {s : RangeSet} (h : s.Canonical) {r p : ByteRange}
    (hp : p ∈ s.carve r) : r.first ≤ p.first ∧ p.last ≤ r.last := by
  have hfirst := (has_carve h).mp ⟨p, hp, p.has_first⟩
  have hlast := (has_carve h).mp ⟨p, hp, p.has_last⟩
  exact ⟨hfirst.1.1, hlast.1.2⟩

end RangeSet
end ImageUpload
