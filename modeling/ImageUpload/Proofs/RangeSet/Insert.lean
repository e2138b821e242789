import ImageUpload.Proofs.RangeSet.Canonical

/-
Adding one range in place.

The runs of a canonical set split at the new range: those that end before it begins,
and the rest.  Of the rest a leading part is swallowed.  Of the runs before only the
nearest can touch.
-/

namespace ImageUpload
namespace RangeSet

/-- The runs that end before an offset are the ones a search from the front passes. -/
theorem le_last_of_mem_dropWhile {l : List ByteRange} (h : Canonical ⟨l⟩) {o : Nat} {a : ByteRange}
    (ha : a ∈ l.dropWhile (fun a => decide (a.last < o))) : o ≤ a.last := by
  induction l with
  | nil => exact absurd ha List.not_mem_nil
  | cons s rest ih =>
    rw [List.dropWhile_cons] at ha
    split at ha
    next _ => exact ih h.tail ha
    next hs =>
      have hos : o ≤ s.last := by simpa using hs
      rcases List.mem_cons.mp ha with rfl | ha
      · exact hos
      · have hgap := (List.pairwise_cons.mp h).1 a ha
        have := a.first_le_last
        omega

theorem last_lt_of_mem_takeWhile {l : List ByteRange} {o : Nat} {a : ByteRange}
    (ha : a ∈ l.takeWhile (fun a => decide (a.last < o))) : a.last < o :=
  of_decide_eq_true (List.all_eq_true.mp List.all_takeWhile a ha)

theorem has_append {l m : List ByteRange} {o : Nat} :
    Has ⟨l ++ m⟩ o ↔ Has ⟨l⟩ o ∨ Has ⟨m⟩ o := by
  show (∃ a ∈ l ++ m, a.Has o) ↔ (∃ a ∈ l, a.Has o) ∨ ∃ a ∈ m, a.Has o
  simp only [List.mem_append, or_and_right, exists_or]

theorem canonical_append {l m : List ByteRange} :
    Canonical ⟨l ++ m⟩ ↔
      Canonical ⟨l⟩ ∧ Canonical ⟨m⟩ ∧ ∀ a ∈ l, ∀ b ∈ m, a.last + 2 ≤ b.first :=
  List.pairwise_append

/-! ## Swallowing what follows -/

theorem has_absorb (run : ByteRange) (l : List ByteRange) (o : Nat) :
    Has ⟨(absorb run l).1 :: (absorb run l).2⟩ o ↔ run.Has o ∨ Has ⟨l⟩ o := by
  induction l generalizing run with
  | nil => exact has_cons
  | cons s rest ih =>
    rw [absorb]
    split
    next ht =>
      have ht' : run.touches s = true := by
        have := ByteRange.touches_iff.mp ht
        exact ByteRange.touches_iff.mpr ⟨this.2, this.1⟩
      rw [ih, ByteRange.has_hull ht', has_cons, or_assoc]
    next _ => exact has_cons

/-- What `absorb` leaves lies past a gap, if the runs end after the new range begins. -/
theorem canonical_absorb (run : ByteRange) {l : List ByteRange} (h : Canonical ⟨l⟩)
    (hl : ∀ a ∈ l, run.first ≤ a.last) :
    Canonical ⟨(absorb run l).1 :: (absorb run l).2⟩ := by
  induction l generalizing run with
  | nil => exact List.pairwise_singleton _ _
  | cons s rest ih =>
    rw [absorb]
    split
    next _ =>
      refine ih (run.hull s) h.tail fun a ha => ?_
      have := hl a (List.mem_cons_of_mem s ha)
      show min run.first s.first ≤ a.last
      omega
    next hnot =>
      have hgap : ¬(s.first ≤ run.last + 1 ∧ run.first ≤ s.last + 1) :=
        fun hc => hnot (ByteRange.touches_iff.mpr hc)
      have hs := hl s List.mem_cons_self
      have hfirst : run.last + 2 ≤ s.first := by omega
      refine List.pairwise_cons.mpr ⟨fun a ha => ?_, h⟩
      rcases List.mem_cons.mp ha with rfl | ha
      · exact hfirst
      · have hafter := (List.pairwise_cons.mp h).1 a ha
        have := s.first_le_last
        show run.last + 2 ≤ a.first
        omega

/-- The run that grows keeps its beginning, or takes that of a run it swallows. -/
theorem le_first_absorb (run : ByteRange) {l : List ByteRange} {n : Nat} (hrun : n ≤ run.first)
    (hl : ∀ a ∈ l, n ≤ a.first) : n ≤ (absorb run l).1.first := by
  induction l generalizing run with
  | nil => exact hrun
  | cons s rest ih =>
    rw [absorb]
    split
    next _ =>
      have hs := hl s List.mem_cons_self
      refine ih (run.hull s) ?_ fun a ha => hl a (List.mem_cons_of_mem s ha)
      show n ≤ min run.first s.first
      omega
    next _ => exact hrun

/-! ## Insertion -/

/-- The shape of an insertion: what lies before, one run, what lies after.  With a
neighbour to merge with, that neighbour is the last of what lay before. -/
theorem insert_cases (s : RangeSet) (r : ByteRange) :
    ∃ below above : List ByteRange, ∃ run : ByteRange,
      below = s.ranges.takeWhile (fun a => decide (a.last < r.first)) ∧
      absorb r (s.ranges.dropWhile (fun a => decide (a.last < r.first))) = (run, above) ∧
      ((∃ init neighbour, below = init ++ [neighbour] ∧ neighbour.touches run = true ∧
          s.insert r = ⟨init ++ run.hull neighbour :: above⟩) ∨
        ((∀ init neighbour, below = init ++ [neighbour] → neighbour.touches run = false) ∧
          s.insert r = ⟨below ++ run :: above⟩)) := by
  refine ⟨_, _, _, rfl, rfl, ?_⟩
  unfold insert
  cases hlast : (s.ranges.takeWhile (fun a => decide (a.last < r.first))).getLast? with
  | none =>
    have hnil := List.getLast?_eq_none_iff.mp hlast
    refine Or.inr ⟨fun init neighbour he => ?_, ?_⟩
    · rw [hnil] at he
      simp at he
    · rw [hnil]
      rfl
  | some neighbour =>
    obtain ⟨init, hinit⟩ := List.getLast?_eq_some_iff.mp hlast
    simp only [hlast]
    split
    next ht =>
      refine Or.inl ⟨init, neighbour, hinit, ht, ?_⟩
      rw [hinit, List.dropLast_concat]
    next ht =>
      refine Or.inr ⟨fun init' neighbour' he => ?_, rfl⟩
      rw [hinit] at he
      obtain ⟨_, heq⟩ := List.append_inj' he rfl
      injection heq with heq
      subst heq
      exact Bool.eq_false_iff.mpr ht

theorem has_insert {s : RangeSet} {r : ByteRange} {o : Nat} :
    (s.insert r).Has o ↔ s.Has o ∨ r.Has o := by
  obtain ⟨below, above, run, hbelow, habove, hcases⟩ := insert_cases s r
  have hsplit : s.Has o ↔ Has ⟨below⟩ o ∨
      Has ⟨s.ranges.dropWhile (fun a => decide (a.last < r.first))⟩ o := by
    rw [hbelow, ← has_append, List.takeWhile_append_dropWhile]
  have hrun : Has ⟨run :: above⟩ o ↔ r.Has o ∨
      Has ⟨s.ranges.dropWhile (fun a => decide (a.last < r.first))⟩ o := by
    have h := has_absorb r (s.ranges.dropWhile (fun a => decide (a.last < r.first))) o
    rwa [habove] at h
  rcases hcases with ⟨init, neighbour, hinit, ht, heq⟩ | ⟨_, heq⟩
  · have ht' : run.touches neighbour = true := by
      have := ByteRange.touches_iff.mp ht
      exact ByteRange.touches_iff.mpr ⟨this.2, this.1⟩
    have hhull : Has ⟨run.hull neighbour :: above⟩ o ↔
        Has ⟨run :: above⟩ o ∨ neighbour.Has o := by
      rw [has_cons, ByteRange.has_hull ht', has_cons]
      exact or_right_comm
    have hone : Has ⟨[neighbour]⟩ o ↔ neighbour.Has o := by
      rw [has_cons]
      exact or_iff_left (not_has_empty o)
    rw [heq, has_append, hhull, hrun, hsplit, hinit, has_append, hone]
    constructor
    · rintro (h | (h | h) | h)
      · exact Or.inl (Or.inl (Or.inl h))
      · exact Or.inr h
      · exact Or.inl (Or.inr h)
      · exact Or.inl (Or.inl (Or.inr h))
    · rintro (((h | h) | h) | h)
      · exact Or.inl h
      · exact Or.inr (Or.inr h)
      · exact Or.inr (Or.inl (Or.inr h))
      · exact Or.inr (Or.inl (Or.inl h))
  · rw [heq, has_append, hrun, hsplit, or_assoc]
    exact or_congr_right or_comm

theorem canonical_insert {s : RangeSet} (h : s.Canonical) (r : ByteRange) :
    (s.insert r).Canonical := by
  obtain ⟨below, above, run, hbelow, habove, hcases⟩ := insert_cases s r
  have hsplit : Canonical ⟨below ++ s.ranges.dropWhile (fun a => decide (a.last < r.first))⟩ := by
    rw [hbelow, List.takeWhile_append_dropWhile]
    exact h
  obtain ⟨hb, hd, hbd⟩ := canonical_append.mp hsplit
  have hends : ∀ a ∈ below, a.last < r.first := by
    intro a ha
    rw [hbelow] at ha
    exact last_lt_of_mem_takeWhile ha
  have htop : Canonical ⟨run :: above⟩ := by
    have := canonical_absorb r hd fun a ha => le_last_of_mem_dropWhile h ha
    rwa [habove] at this
  -- every run below ends before the grown run begins, though perhaps without a gap
  have hlow : ∀ a ∈ below, a.last + 1 ≤ run.first := by
    intro a ha
    have := le_first_absorb r (Nat.succ_le_of_lt (hends a ha))
      fun b hb => Nat.le_of_succ_le (hbd a ha b hb)
    rwa [habove] at this
  have hfar : ∀ a ∈ below, ∀ b ∈ above, a.last + 2 ≤ b.first := by
    intro a ha b hb
    have := hlow a ha
    have := (List.pairwise_cons.mp htop).1 b hb
    have := run.first_le_last
    omega
  rcases hcases with ⟨init, neighbour, hinit, _, heq⟩ | ⟨hno, heq⟩
  · rw [hinit] at hb
    obtain ⟨hi, _, hin⟩ := canonical_append.mp hb
    have hnb : neighbour ∈ below := hinit ▸ List.mem_append_right _ List.mem_cons_self
    have hib : ∀ a ∈ init, a ∈ below := fun a ha => hinit ▸ List.mem_append_left _ ha
    rw [heq]
    refine canonical_append.mpr ⟨hi, List.pairwise_cons.mpr ⟨fun b hb' => ?_, htop.tail⟩, ?_⟩
    · have := hfar neighbour hnb b hb'
      have := (List.pairwise_cons.mp htop).1 b hb'
      show max run.last neighbour.last + 2 ≤ b.first
      omega
    · intro a ha b hb'
      rcases List.mem_cons.mp hb' with rfl | hb'
      · have hgap := hin a ha neighbour List.mem_cons_self
        have := hlow neighbour hnb
        have := neighbour.first_le_last
        show a.last + 2 ≤ min run.first neighbour.first
        omega
      · exact hfar a (hib a ha) b hb'
  · rw [heq]
    refine canonical_append.mpr ⟨hb, htop, fun a ha b hb' => ?_⟩
    rcases List.mem_cons.mp hb' with rfl | hb'
    · -- only the last run below could have touched
      rcases List.eq_nil_or_concat below with hnil | ⟨init, neighbour, hinit⟩
      · rw [hnil] at ha
        exact absurd ha List.not_mem_nil
      · rw [List.concat_eq_append] at hinit
        have hnb : neighbour ∈ below := hinit ▸ List.mem_append_right _ List.mem_cons_self
        have hnot := hno init neighbour hinit
        have hgap : ¬(neighbour.first ≤ b.last + 1 ∧ b.first ≤ neighbour.last + 1) := by
          intro hc
          rw [ByteRange.touches_iff.mpr hc] at hnot
          exact Bool.noConfusion hnot
        have hln := hlow neighbour hnb
        have hbl := b.first_le_last
        have hnl := neighbour.first_le_last
        have hnear : neighbour.last + 2 ≤ b.first := by omega
        rw [hinit] at ha hb
        rcases List.mem_append.mp ha with ha | ha
        · have := (canonical_append.mp hb).2.2 a ha neighbour List.mem_cons_self
          omega
        · rw [List.mem_singleton.mp ha]
          exact hnear
    · exact hfar a ha b hb'

/-- Insertion in place agrees with building the set anew. -/
theorem insert_eq_ofRanges {s : RangeSet} (h : s.Canonical) (r : ByteRange) :
    s.insert r = ofRanges (s.ranges ++ [r]) := by
  refine Canonical.ext (canonical_insert h r) (canonical_ofRanges _) fun o => ?_
  rw [has_insert, has_ofRanges]
  show (∃ a ∈ s.ranges, a.Has o) ∨ r.Has o ↔ _
  simp only [List.mem_append, List.mem_singleton, or_and_right, exists_or, exists_eq_left]

/-- Inserting ranges one after another adds their bytes. -/
theorem has_foldl_insert {l : List ByteRange} {s : RangeSet} {o : Nat} :
    (l.foldl insert s).Has o ↔ s.Has o ∨ ∃ r ∈ l, r.Has o := by
  induction l generalizing s with
  | nil => exact (or_iff_left fun ⟨_, h, _⟩ => absurd h List.not_mem_nil).symm
  | cons r rest ih =>
    rw [List.foldl_cons, ih, has_insert, or_assoc]
    simp only [List.mem_cons, exists_eq_or_imp]

theorem canonical_foldl_insert {l : List ByteRange} {s : RangeSet} (h : s.Canonical) :
    (l.foldl insert s).Canonical := by
  induction l generalizing s with
  | nil => exact h
  | cons r rest ih => exact ih (canonical_insert h r)

/-- A set is made anew from its own runs. -/
theorem foldl_insert_ranges {s : RangeSet} (h : s.Canonical) : s.ranges.foldl insert empty = s := by
  refine (canonical_foldl_insert canonical_empty).ext h fun o => ?_
  rw [has_foldl_insert]
  exact or_iff_right (not_has_empty o)

end RangeSet
end ImageUpload
