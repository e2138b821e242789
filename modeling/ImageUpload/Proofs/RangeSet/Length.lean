import Mathlib.Order.Interval.Finset.Nat
import ImageUpload.Proofs.RangeSet.History
import ImageUpload.Proofs.RangeSet.InPlace

/-
How many bytes a set has.

The runs of a canonical set share no byte, so its total length is the number of its bytes,
`card_bytes`.  Lengths are then compared as the finite sets of offsets that they count: nothing is
lost or counted twice when a set is taken apart or put together, `subtract_exact`.
-/

namespace ImageUpload
namespace RangeSet

variable {s t : RangeSet}

/-- The offsets of the bytes in the set. -/
def bytes (s : RangeSet) : Finset Nat :=
  s.ranges.foldr (fun r offsets => Finset.Icc r.first r.last ∪ offsets) ∅

theorem mem_bytes {o : Nat} : o ∈ s.bytes ↔ s.Has o := by
  obtain ⟨l⟩ := s
  induction l with
  | nil => exact iff_of_false (Finset.notMem_empty o) (not_has_empty o)
  | cons r rest ih =>
    rw [has_cons, ← ih]
    show o ∈ Finset.Icc r.first r.last ∪ bytes ⟨rest⟩ ↔ _
    rw [Finset.mem_union, Finset.mem_Icc]
    rfl

theorem card_bytes (h : s.Canonical) : s.bytes.card = s.totalLength := by
  obtain ⟨l⟩ := s
  induction l with
  | nil => rfl
  | cons r rest ih =>
    have hend := r.first_add_length
    have hapart : Disjoint (Finset.Icc r.first r.last) (bytes ⟨rest⟩) := by
      rw [Finset.disjoint_left]
      intro o ho hrest
      have hgap := h.lt_of_has_tail (mem_bytes.mp hrest)
      have hlast := (Finset.mem_Icc.mp ho).2
      omega
    show (Finset.Icc r.first r.last ∪ bytes ⟨rest⟩).card = r.length + totalLength ⟨rest⟩
    rw [Finset.card_union_of_disjoint hapart, ih h.tail, Nat.card_Icc]
    omega

theorem bytes_subtract (ht : t.Canonical) : (s.subtract t).bytes = s.bytes \ t.bytes := by
  ext o
  rw [Finset.mem_sdiff, mem_bytes, mem_bytes, mem_bytes, has_subtract ht]

theorem bytes_union : (s.union t).bytes = s.bytes ∪ t.bytes := by
  ext o
  rw [Finset.mem_union, mem_bytes, mem_bytes, mem_bytes, has_union]

/-- What a set keeps of another and what it takes away make up its length. -/
theorem totalLength_split (hs : s.Canonical) (ht : t.Canonical) :
    s.totalLength = (s.subtract t).totalLength + (s.subtract (s.subtract t)).totalLength := by
  have hrest := canonical_subtract hs ht
  have hshared : s.bytes \ (s.bytes \ t.bytes) = s.bytes ∩ t.bytes := sdiff_sdiff_right_self
  rw [← card_bytes hs, ← card_bytes hrest, ← card_bytes (canonical_subtract hs hrest),
    bytes_subtract hrest, bytes_subtract ht, hshared]
  exact (Finset.card_sdiff_add_card_inter s.bytes t.bytes).symm

theorem totalLength_union (hs : s.Canonical) (ht : t.Canonical) :
    (s.union t).totalLength = s.totalLength + (t.subtract s).totalLength := by
  rw [← card_bytes (canonical_union s t), ← card_bytes hs, ← card_bytes (canonical_subtract ht hs),
    bytes_union, bytes_subtract hs, ← Finset.union_sdiff_self_eq_union]
  exact Finset.card_union_of_disjoint Finset.disjoint_sdiff

/-- Subtraction takes away exactly the bytes of the other set, wherever the two lie, and no sum or
difference on the way leaves the words.  The length of a set is the number of its bytes, so what
one set leaves of another and what it takes from it come to the whole, and a union is as long as one
set and what is left of the other. -/
theorem subtract_exact (hs : s.Canonical) (ht : t.Canonical) :
    s.subtract? t = some (s.subtract t) ∧
      (∀ o, (s.subtract t).Has o ↔ s.Has o ∧ ¬t.Has o) ∧
      (s.totalLength = s.bytes.card ∧ ∀ o, o ∈ s.bytes ↔ s.Has o) ∧
      s.totalLength = (s.subtract t).totalLength + (s.subtract (s.subtract t)).totalLength ∧
      (s.union t).totalLength = s.totalLength + (t.subtract s).totalLength :=
  ⟨subtract?_eq s ht, fun _ => has_subtract ht, ⟨(card_bytes hs).symm, fun _ => mem_bytes⟩,
    totalLength_split hs ht, totalLength_union hs ht⟩

/-- Holes that cover a border, end at a border and reach the largest offset, and a set of all bytes,
whose length no word holds. -/
theorem subtract_exact_full :
    let all : RangeSet := ⟨[⟨0, 2 ^ 64 - 1, by decide, by decide⟩]⟩
    let holes : RangeSet := ⟨[⟨0, 9, by decide, by decide⟩, ⟨20, 29, by decide, by decide⟩,
      ⟨2 ^ 64 - 6, 2 ^ 64 - 1, by decide, by decide⟩]⟩
    all.Canonical ∧ holes.Canonical ∧ all.totalLength = 2 ^ 64 ∧
      all.subtract? holes = some ⟨[⟨10, 19, by decide, by decide⟩,
        ⟨30, 2 ^ 64 - 7, by decide, by decide⟩]⟩ ∧
      all.subtract (all.subtract holes) = holes ∧
      2 ^ 64 = (all.subtract holes).totalLength + holes.totalLength ∧
      (holes.union all).totalLength = holes.totalLength + (all.subtract holes).totalLength := by
  intro all holes
  have hall : all.Canonical := by decide
  have hholes : holes.Canonical := by decide
  obtain ⟨hwords, -, -, hsplit, -⟩ := subtract_exact hall hholes
  obtain ⟨-, -, -, -, hunion⟩ := subtract_exact hholes hall
  have hlength : all.totalLength = 2 ^ 64 := by decide +kernel
  have hrest : all.subtract (all.subtract holes) = holes := by decide +kernel
  rw [hrest, hlength] at hsplit
  exact ⟨hall, hholes, hlength, by decide +kernel, hrest, hsplit, hunion⟩

end RangeSet
end ImageUpload
