import ImageUpload.RangeSet.Basic

/-
The bytes and the form of a set of ranges.

`Has` is the meaning of a set and `Canonical` its form.  The operations that build
a set are described by both: what is in the result, as a statement about bytes, and
that the result is canonical.  A canonical set is determined by its bytes, which is
`Canonical.ext`, so a statement about bytes settles an equation between sets.
-/

namespace ImageUpload

namespace ByteRange

theorem has_first (r : ByteRange) : r.Has r.first :=
  ⟨Nat.le_refl _, r.first_le_last⟩

theorem has_last (r : ByteRange) : r.Has r.last :=
  ⟨r.first_le_last, Nat.le_refl _⟩

theorem first_add_length (r : ByteRange) : r.first + r.length = r.last + 1 := by
  have h := r.first_le_last
  unfold length
  omega

theorem touches_iff {r s : ByteRange} :
    r.touches s = true ↔ r.first ≤ s.last + 1 ∧ s.first ≤ r.last + 1 := by
  have hr := r.first_le_last
  have hs := s.first_le_last
  simp only [touches, overlaps, Bool.or_eq_true, Bool.and_eq_true, decide_eq_true_eq]
  omega

/-- Two ranges that touch leave no gap for the hull to fill. -/
theorem has_hull {r s : ByteRange} (h : r.touches s = true) (o : Nat) :
    (r.hull s).Has o ↔ r.Has o ∨ s.Has o := by
  obtain ⟨hrs, hsr⟩ := touches_iff.mp h
  have hr := r.first_le_last
  have hs := s.first_le_last
  show min r.first s.first ≤ o ∧ o ≤ max r.last s.last ↔
    (r.first ≤ o ∧ o ≤ r.last) ∨ (s.first ≤ o ∧ o ≤ s.last)
  omega

theorem ordering_isLE_iff {r s : ByteRange} :
    (r.ordering s).isLE = true ↔ r.first < s.first ∨ (r.first = s.first ∧ r.last ≤ s.last) := by
  rcases Nat.lt_trichotomy r.first s.first with h | h | h
  · have hc : compare r.first s.first = .lt := Nat.compare_eq_lt.mpr h
    simp [ordering, hc, h]
  · simp [ordering, h, Nat.isLE_compare]
  · have hc : compare r.first s.first = .gt := Nat.compare_eq_gt.mpr h
    simp only [ordering, hc, Ordering.then, Ordering.isLE_gt, Bool.false_eq_true, false_iff]
    omega

theorem eq_of_ends {r s : ByteRange} (hf : r.first = s.first) (hl : r.last = s.last) :
    r = s := by
  cases r
  cases s
  cases hf
  cases hl
  rfl

end ByteRange

namespace RangeSet

/-! ## Sorting and merging -/

/-- The order in which ranges are merged: by their first bytes. -/
def Ascending (l : List ByteRange) : Prop :=
  l.Pairwise (fun a b => a.first ≤ b.first)

theorem mem_place {r a : ByteRange} {l : List ByteRange} : a ∈ place r l ↔ a = r ∨ a ∈ l := by
  induction l with
  | nil => simp [place]
  | cons s rest ih =>
    rw [place]
    split
    · rw [List.mem_cons]
    · rw [List.mem_cons, ih, List.mem_cons]
      constructor
      · rintro (h | h | h)
        · exact Or.inr (Or.inl h)
        · exact Or.inl h
        · exact Or.inr (Or.inr h)
      · rintro (h | h | h)
        · exact Or.inr (Or.inl h)
        · exact Or.inl h
        · exact Or.inr (Or.inr h)

theorem ascending_place {r : ByteRange} {l : List ByteRange} (h : Ascending l) :
    Ascending (place r l) := by
  induction l with
  | nil => exact List.pairwise_singleton _ _
  | cons s rest ih =>
    obtain ⟨hs, hrest⟩ := List.pairwise_cons.mp h
    rw [place]
    split
    next hle =>
      have hrs : r.first ≤ s.first := by
        rcases ByteRange.ordering_isLE_iff.mp hle with hlt | ⟨heq, _⟩
        · exact Nat.le_of_lt hlt
        · exact Nat.le_of_eq heq
      refine List.pairwise_cons.mpr ⟨fun a ha => ?_, h⟩
      rcases List.mem_cons.mp ha with rfl | ha
      · exact hrs
      · exact Nat.le_trans hrs (hs a ha)
    next hgt =>
      have hsr : s.first ≤ r.first := by
        have hn : ¬r.first < s.first := fun hlt => hgt (ByteRange.ordering_isLE_iff.mpr (Or.inl hlt))
        omega
      refine List.pairwise_cons.mpr ⟨fun a ha => ?_, ih hrest⟩
      rcases mem_place.mp ha with rfl | ha
      · exact hsr
      · exact hs a ha

theorem mem_sorted {a : ByteRange} {l : List ByteRange} : a ∈ l.foldr place [] ↔ a ∈ l := by
  induction l with
  | nil => rfl
  | cons r rest ih => rw [List.foldr_cons, mem_place, ih, List.mem_cons]

theorem ascending_sorted (l : List ByteRange) : Ascending (l.foldr place []) := by
  induction l with
  | nil => exact List.Pairwise.nil
  | cons r rest ih => exact ascending_place ih

theorem has_coalesce {run : ByteRange} {l : List ByteRange} {o : Nat} :
    (∃ r ∈ coalesce run l, r.Has o) ↔ run.Has o ∨ ∃ r ∈ l, r.Has o := by
  induction l generalizing run with
  | nil => simp [coalesce]
  | cons s rest ih =>
    rw [coalesce]
    split
    next ht => rw [ih, ByteRange.has_hull ht, or_assoc]; simp only [List.mem_cons, exists_eq_or_imp]
    next _ => simp only [List.mem_cons, exists_eq_or_imp, ih]

/-- Merging never reaches back before the run it starts from. -/
theorem first_le_of_mem_coalesce {run a : ByteRange} {l : List ByteRange}
    (h : Ascending (run :: l)) (ha : a ∈ coalesce run l) : run.first ≤ a.first := by
  induction l generalizing run with
  | nil =>
    rw [coalesce, List.mem_singleton] at ha
    exact Nat.le_of_eq (congrArg ByteRange.first ha.symm)
  | cons s rest ih =>
    obtain ⟨hrun, htail⟩ := List.pairwise_cons.mp h
    have hs : run.first ≤ s.first := hrun s List.mem_cons_self
    rw [coalesce] at ha
    split at ha
    next _ =>
      have hasc : Ascending (run.hull s :: rest) := by
        refine List.pairwise_cons.mpr ⟨fun b hb => ?_, (List.pairwise_cons.mp htail).2⟩
        show min run.first s.first ≤ b.first
        have := hrun b (List.mem_cons_of_mem s hb)
        omega
      have hle : min run.first s.first ≤ a.first := ih hasc ha
      omega
    next _ =>
      rcases List.mem_cons.mp ha with rfl | ha
      · exact Nat.le_refl _
      · exact Nat.le_trans hs (ih htail ha)

theorem canonical_coalesce {run : ByteRange} {l : List ByteRange} (h : Ascending (run :: l)) :
    Canonical ⟨coalesce run l⟩ := by
  induction l generalizing run with
  | nil => exact List.pairwise_singleton _ _
  | cons s rest ih =>
    obtain ⟨hrun, htail⟩ := List.pairwise_cons.mp h
    have hs : run.first ≤ s.first := hrun s List.mem_cons_self
    show List.Pairwise _ (coalesce run (s :: rest))
    rw [coalesce]
    split
    next _ =>
      refine ih (List.pairwise_cons.mpr ⟨fun b hb => ?_, (List.pairwise_cons.mp htail).2⟩)
      show min run.first s.first ≤ b.first
      have := hrun b (List.mem_cons_of_mem s hb)
      omega
    next hnot =>
      -- the runs that follow begin at `s` or later, and `s` leaves a gap
      refine List.pairwise_cons.mpr ⟨fun b hb => ?_, ih htail⟩
      have hb := first_le_of_mem_coalesce htail hb
      have hgap : ¬(run.first ≤ s.last + 1 ∧ s.first ≤ run.last + 1) :=
        fun hc => hnot (ByteRange.touches_iff.mpr hc)
      have := s.first_le_last
      omega

/-- Sorting and merging make no new ends. -/
theorem ends_of_mem_coalesce {run a : ByteRange} {l : List ByteRange} (ha : a ∈ coalesce run l) :
    (∃ b ∈ run :: l, b.first = a.first) ∧ ∃ b ∈ run :: l, b.last = a.last := by
  induction l generalizing run with
  | nil =>
    rw [coalesce, List.mem_singleton] at ha
    subst ha
    exact ⟨⟨a, List.mem_cons_self, rfl⟩, ⟨a, List.mem_cons_self, rfl⟩⟩
  | cons s rest ih =>
    rw [coalesce] at ha
    split at ha
    next _ =>
      obtain ⟨⟨b, hb, hbf⟩, ⟨c, hc, hcl⟩⟩ := ih ha
      constructor
      · rcases List.mem_cons.mp hb with rfl | hb
        · rcases Nat.le_total run.first s.first with h | h
          · exact ⟨run, List.mem_cons_self, hbf ▸ (Nat.min_eq_left h).symm⟩
          · exact ⟨s, List.mem_cons_of_mem run List.mem_cons_self, hbf ▸ (Nat.min_eq_right h).symm⟩
        · exact ⟨b, List.mem_cons_of_mem run (List.mem_cons_of_mem s hb), hbf⟩
      · rcases List.mem_cons.mp hc with rfl | hc
        · rcases Nat.le_total run.last s.last with h | h
          · exact ⟨s, List.mem_cons_of_mem run List.mem_cons_self, hcl ▸ (Nat.max_eq_right h).symm⟩
          · exact ⟨run, List.mem_cons_self, hcl ▸ (Nat.max_eq_left h).symm⟩
        · exact ⟨c, List.mem_cons_of_mem run (List.mem_cons_of_mem s hc), hcl⟩
    next _ =>
      rcases List.mem_cons.mp ha with rfl | ha
      · exact ⟨⟨a, List.mem_cons_self, rfl⟩, ⟨a, List.mem_cons_self, rfl⟩⟩
      · obtain ⟨⟨b, hb, hbf⟩, ⟨c, hc, hcl⟩⟩ := ih ha
        exact ⟨⟨b, List.mem_cons_of_mem run hb, hbf⟩, ⟨c, List.mem_cons_of_mem run hc, hcl⟩⟩

theorem canonical_empty : Canonical empty := List.Pairwise.nil

theorem not_has_empty (o : Nat) : ¬empty.Has o := by
  rintro ⟨r, hr, _⟩
  exact absurd hr List.not_mem_nil

theorem canonical_ofRanges (l : List ByteRange) : (ofRanges l).Canonical := by
  have hasc := ascending_sorted l
  unfold ofRanges
  split
  next _ => exact canonical_empty
  next r rest hl => exact canonical_coalesce (hl ▸ hasc)

theorem has_ofRanges {l : List ByteRange} {o : Nat} :
    (ofRanges l).Has o ↔ ∃ r ∈ l, r.Has o := by
  have hmem : (∃ r ∈ l.foldr place [], r.Has o) ↔ ∃ r ∈ l, r.Has o :=
    exists_congr fun r => and_congr_left fun _ => mem_sorted
  rw [← hmem]
  unfold ofRanges
  split
  next hl => rw [hl]; exact ⟨fun h => absurd h (not_has_empty o), fun ⟨_, h, _⟩ => absurd h List.not_mem_nil⟩
  next r rest hl =>
    simp only [hl, List.mem_cons, exists_eq_or_imp]
    exact has_coalesce

theorem ends_of_mem_ofRanges {l : List ByteRange} {a : ByteRange} (ha : a ∈ (ofRanges l).ranges) :
    (∃ b ∈ l, b.first = a.first) ∧ ∃ b ∈ l, b.last = a.last := by
  unfold ofRanges at ha
  split at ha
  next _ => exact absurd ha List.not_mem_nil
  next r rest hl =>
    obtain ⟨⟨b, hb, hbf⟩, ⟨c, hc, hcl⟩⟩ := ends_of_mem_coalesce ha
    rw [← hl] at hb hc
    exact ⟨⟨b, mem_sorted.mp hb, hbf⟩, ⟨c, mem_sorted.mp hc, hcl⟩⟩

theorem canonical_union (s t : RangeSet) : (s.union t).Canonical :=
  canonical_ofRanges _

theorem has_union {s t : RangeSet} {o : Nat} : (s.union t).Has o ↔ s.Has o ∨ t.Has o := by
  unfold union
  rw [has_ofRanges]
  simp only [List.mem_append, or_and_right, exists_or]
  rfl

/-! ## Canonical sets -/

theorem has_cons {r : ByteRange} {l : List ByteRange} {o : Nat} :
    Has ⟨r :: l⟩ o ↔ r.Has o ∨ Has ⟨l⟩ o := by
  show (∃ a ∈ r :: l, a.Has o) ↔ r.Has o ∨ ∃ a ∈ l, a.Has o
  simp only [List.mem_cons, exists_eq_or_imp]

theorem Canonical.tail {r : ByteRange} {l : List ByteRange} (h : Canonical ⟨r :: l⟩) :
    Canonical ⟨l⟩ := (List.pairwise_cons.mp h).2

/-- The bytes after the first run lie past a gap. -/
theorem Canonical.lt_of_has_tail {r : ByteRange} {l : List ByteRange} (h : Canonical ⟨r :: l⟩)
    {o : Nat} (ho : Has ⟨l⟩ o) : r.last + 2 ≤ o := by
  obtain ⟨a, ha, hao⟩ := ho
  exact Nat.le_trans ((List.pairwise_cons.mp h).1 a ha) hao.1

/-- The first run of a canonical set reaches from its first byte to its first gap. -/
theorem Canonical.first_run_le {r s : ByteRange} {l m : List ByteRange}
    (hr : Canonical ⟨r :: l⟩) (hs : Canonical ⟨s :: m⟩)
    (h : ∀ o, Has ⟨r :: l⟩ o ↔ Has ⟨s :: m⟩ o) : r.first ≤ s.first ∧ r.last ≤ s.last := by
  have hfirst : s.first ≤ r.first := by
    rcases has_cons.mp ((h r.first).mp (has_cons.mpr (Or.inl r.has_first))) with hh | hh
    · exact hh.1
    · have := hs.lt_of_has_tail hh
      have := s.first_le_last
      omega
  have hback : r.first ≤ s.first := by
    rcases has_cons.mp ((h s.first).mpr (has_cons.mpr (Or.inl s.has_first))) with hh | hh
    · exact hh.1
    · have := hr.lt_of_has_tail hh
      have := r.first_le_last
      omega
  refine ⟨hback, ?_⟩
  -- otherwise the byte after `s` would be in `r` and in the gap of the other set
  by_cases hlt : s.last < r.last
  · have hin : r.Has (s.last + 1) := ⟨by have := s.first_le_last; omega, hlt⟩
    rcases has_cons.mp ((h (s.last + 1)).mp (has_cons.mpr (Or.inl hin))) with hh | hh
    · have := hh.2
      omega
    · have := hs.lt_of_has_tail hh
      omega
  · omega

/-- A canonical set is determined by its bytes. -/
theorem Canonical.ext {s t : RangeSet} (hs : s.Canonical) (ht : t.Canonical)
    (h : ∀ o, s.Has o ↔ t.Has o) : s = t := by
  obtain ⟨l⟩ := s
  obtain ⟨m⟩ := t
  induction l generalizing m with
  | nil =>
    cases m with
    | nil => rfl
    | cons b m => exact absurd ((h b.first).mpr (has_cons.mpr (Or.inl b.has_first))) (not_has_empty _)
  | cons a l ih =>
    cases m with
    | nil => exact absurd ((h a.first).mp (has_cons.mpr (Or.inl a.has_first))) (not_has_empty _)
    | cons b m =>
      have hab := hs.first_run_le ht h
      have hba := ht.first_run_le hs fun o => (h o).symm
      have heq : a = b := ByteRange.eq_of_ends (by omega) (by omega)
      subst heq
      have htail : ∀ o, Has ⟨l⟩ o ↔ Has ⟨m⟩ o := by
        intro o
        constructor
        · intro ho
          have hgap := hs.lt_of_has_tail ho
          rcases has_cons.mp ((h o).mp (has_cons.mpr (Or.inr ho))) with hh | hh
          · have := hh.2
            omega
          · exact hh
        · intro ho
          have hgap := ht.lt_of_has_tail ho
          rcases has_cons.mp ((h o).mpr (has_cons.mpr (Or.inr ho))) with hh | hh
          · have := hh.2
            omega
          · exact hh
      have hlm := ih hs.tail m ht.tail htail
      injection hlm with hlm
      rw [hlm]

theorem ofRanges_ranges {s : RangeSet} (h : s.Canonical) : ofRanges s.ranges = s :=
  (canonical_ofRanges s.ranges).ext h fun _ => has_ofRanges

end RangeSet
end ImageUpload
