import ImageUpload.Proofs.RangeSet.Carve
import ImageUpload.RangeSet.Text

/-
The form of every set that the operations can build.

Sorting and merging, insertion in place and subtraction come to canonical sets by three
different arguments: merging leaves gaps, insertion keeps those that are there, and what
subtraction leaves of one run is parted by the holes.  By induction over its history every
set is canonical, and a canonical set is determined by its bytes, so what the operations do
to bytes is all there is to say of them.
-/

namespace ImageUpload
namespace RangeSet

/-! ## Subtraction -/

theorem canonical_before (r : ByteRange) (n : Nat) : Canonical ⟨r.before n⟩ := by
  unfold ByteRange.before Canonical
  split <;> simp

theorem last_lt_of_mem_before {r p : ByteRange} {n : Nat} (hp : p ∈ r.before n) : p.last < n := by
  unfold ByteRange.before at hp
  split at hp
  next h =>
    rw [List.mem_singleton.mp hp]
    simp only
    omega
  next _ => simp at hp

/-- The parts that holes leave of a range are as far apart as the holes are wide. -/
theorem canonical_cut {r : ByteRange} {holes : List ByteRange} (hc : Canonical ⟨holes⟩)
    (hends : ∀ a ∈ holes, r.first ≤ a.last) : Canonical ⟨cut r holes⟩ := by
  induction holes generalizing r with
  | nil => simp [cut, Canonical]
  | cons hole rest ih =>
    have hle := hole.first_le_last
    rw [cut]
    split
    next _ => simp [Canonical]
    next hge =>
      split
      next hlast =>
        -- what lies before the hole ends at it, and what the other holes leave begins behind it
        have hbehind : ∀ a ∈ rest, hole.last + 1 ≤ a.last := by
          intro a ha
          have := (List.pairwise_cons.mp hc).1 a ha
          have := a.first_le_last
          omega
        apply canonical_append.mpr
        refine ⟨canonical_before r _, ih hc.tail hbehind, ?_⟩
        intro a ha b hb
        have hfirst := ((has_cut hc.tail hbehind).mp ⟨b, hb, b.has_first⟩).1.1
        have := last_lt_of_mem_before ha
        simp only at hfirst
        omega
      next _ =>
        rw [List.append_nil]
        exact canonical_before r _

theorem canonical_carve {s : RangeSet} (h : s.Canonical) (r : ByteRange) :
    Canonical ⟨s.carve r⟩ := by
  apply canonical_cut
  · exact h.sublist (List.dropWhile_sublist _)
  · intro a ha
    exact le_last_of_mem_dropWhile h ha

/-- What is left of different runs lies in different runs. -/
theorem canonical_subtract {s t : RangeSet} (hs : s.Canonical) (ht : t.Canonical) :
    (s.subtract t).Canonical := by
  obtain ⟨l⟩ := s
  show Canonical ⟨l.flatMap t.carve⟩
  induction l with
  | nil => simp [Canonical]
  | cons r rest ih =>
    rw [List.flatMap_cons, canonical_append]
    refine ⟨canonical_carve ht r, ih hs.tail, ?_⟩
    intro a ha b hb
    obtain ⟨r', hr', hb⟩ := List.mem_flatMap.mp hb
    have hgap := (List.pairwise_cons.mp hs).1 r' hr'
    have := within_of_mem_carve ht ha
    have := within_of_mem_carve ht hb
    omega

theorem has_subtract {s t : RangeSet} (ht : t.Canonical) {o : Nat} :
    (s.subtract t).Has o ↔ s.Has o ∧ ¬t.Has o := by
  show (∃ p ∈ s.ranges.flatMap t.carve, p.Has o) ↔ (∃ r ∈ s.ranges, r.Has o) ∧ ¬t.Has o
  constructor
  · rintro ⟨p, hp, hpo⟩
    obtain ⟨r, hr, hp⟩ := List.mem_flatMap.mp hp
    obtain ⟨hro, hto⟩ := (has_carve ht).mp ⟨p, hp, hpo⟩
    exact ⟨⟨r, hr, hro⟩, hto⟩
  · rintro ⟨⟨r, hr, hro⟩, hto⟩
    obtain ⟨p, hp, hpo⟩ := (has_carve ht).mpr ⟨hro, hto⟩
    exact ⟨p, List.mem_flatMap.mpr ⟨r, hr, hp⟩, hpo⟩

/-! ## Histories -/

/-- The sets that the operations build, from any ranges and from any document that is read
as a set. -/
inductive Built : RangeSet → Prop where
  | ofRanges (l : List ByteRange) : Built (ofRanges l)
  | insert {s : RangeSet} (hs : Built s) (r : ByteRange) : Built (s.insert r)
  | union {s t : RangeSet} (hs : Built s) (ht : Built t) : Built (s.union t)
  | subtract {s t : RangeSet} (hs : Built s) (ht : Built t) : Built (s.subtract t)
  | read {s : RangeSet} {v : Json.Value} (h : ofValue? v = some s) : Built s

theorem built_of_json {text : String} {s : RangeSet} (h : ofJson? text = some s) : s.Built := by
  obtain ⟨v, -, hv⟩ := Option.bind_eq_some_iff.mp h
  exact .read hv

theorem canonical_of_ofValue? {v : Json.Value} {s : RangeSet} (h : ofValue? v = some s) :
    s.Canonical := by
  obtain ⟨l, -, rfl⟩ := Option.map_eq_some_iff.mp h
  exact canonical_ofRanges l

theorem Built.canonical {s : RangeSet} (h : s.Built) : s.Canonical := by
  induction h with
  | ofRanges l => exact canonical_ofRanges l
  | insert hs r ih => exact canonical_insert ih r
  | union hs ht ihs iht => exact canonical_union _ _
  | subtract hs ht ihs iht => exact canonical_subtract ihs iht
  | read h => exact canonical_of_ofValue? h

/-! ## What the form decides -/

theorem Canonical.eq_iff {s t : RangeSet} (hs : s.Canonical) (ht : t.Canonical) :
    s = t ↔ ∀ o, s.Has o ↔ t.Has o := by
  constructor
  · rintro rfl o
    rfl
  · exact hs.ext ht

theorem ofRanges_congr {l m : List ByteRange} (h : ∀ r, r ∈ l ↔ r ∈ m) :
    ofRanges l = ofRanges m := by
  apply (canonical_ofRanges l).ext (canonical_ofRanges m)
  intro o
  simp only [has_ofRanges, h]

theorem union_comm (s t : RangeSet) : s.union t = t.union s := by
  apply (canonical_union s t).ext (canonical_union t s)
  intro o
  rw [has_union, has_union, or_comm]

theorem union_assoc (s t u : RangeSet) : (s.union t).union u = s.union (t.union u) := by
  apply (canonical_union _ u).ext (canonical_union s _)
  intro o
  simp only [has_union, or_assoc]

theorem union_self {s : RangeSet} (h : s.Canonical) : s.union s = s := by
  apply (canonical_union s s).ext h
  intro o
  rw [has_union, or_self]

/-- Whatever was done to build them, sets are lists of ranges with gaps between them, and
equal if their bytes are.  So neither the order nor the repetition of ranges matters, and
the union is that of the bytes. -/
theorem canonical_form_of_built {s t : RangeSet} (hs : s.Built) (ht : t.Built) (u : RangeSet) :
    (s.Canonical ∧ ∀ r ∈ s.ranges, r.first ≤ r.last ∧ r.last < 2 ^ 64) ∧
      (s = t ↔ ∀ o, s.Has o ↔ t.Has o) ∧
      (∀ l m : List ByteRange, (∀ r, r ∈ l ↔ r ∈ m) → ofRanges l = ofRanges m) ∧
      s.union t = t.union s ∧ (s.union t).union u = s.union (t.union u) ∧ s.union s = s := by
  have hcanonical := hs.canonical
  refine ⟨⟨hcanonical, fun r _ => ⟨r.first_le_last, r.last_lt⟩⟩, hcanonical.eq_iff ht.canonical,
    fun l m => ofRanges_congr, union_comm s t, union_assoc s t u, union_self hcanonical⟩

/-- The largest offset, two ranges that sit back to back, a hole, and a document that repeats
itself out of order. -/
theorem canonical_form_of_built_top :
    let top : ByteRange := ⟨2 ^ 64 - 1, 2 ^ 64 - 1, by decide, by decide⟩
    let low : ByteRange := ⟨4, 9, by decide, by decide⟩
    let next : ByteRange := ⟨10, 12, by decide, by decide⟩
    let hole : ByteRange := ⟨6, 7, by decide, by decide⟩
    let s := ((ofRanges [next, low]).insert top).subtract (ofRanges [hole])
    let text := "[\x7b\"start\":8,\"end\":12\x7d,\x7b\"start\":4,\"end\":5\x7d,\x7b\"start\":4,\"end\":5\x7d]"
    ∃ t, ofJson? text = some t ∧ s.Built ∧ t.Built ∧ s.ranges.length = 3 ∧ s.Canonical ∧
      s.union t = t.union s ∧ s ≠ t := by
  intro top low next hole s text
  have hread : (ofJson? text).isSome = true := by decide +kernel
  obtain ⟨t, ht⟩ := Option.isSome_iff_exists.mp hread
  have hs : s.Built := .subtract (.insert (.ofRanges _) _) (.ofRanges _)
  have ht' : t.Built := built_of_json ht
  obtain ⟨⟨hcanonical, -⟩, heq, -, hcomm, -⟩ := canonical_form_of_built hs ht' s
  refine ⟨t, ht, hs, ht', by decide +kernel, hcanonical, hcomm, fun hst => ?_⟩
  have htop : s.Has (2 ^ 64 - 1) := by decide +kernel
  have hno : ∀ t', ofJson? text = some t' → ¬t'.Has (2 ^ 64 - 1) := by decide +kernel
  exact hno t ht ((heq.mp hst _).mp htop)

end RangeSet
end ImageUpload
