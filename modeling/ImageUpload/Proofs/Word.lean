import ImageUpload.Range.Basic

/-
Where words do not overflow.

A computation that is made of operations in words and comes to a result has overflowed nowhere.
Each lemma names the bound under which an operation comes to the number that it stands for.
-/

namespace ImageUpload
namespace Word

theorem add?_eq {a b : Nat} (h : a + b < 2 ^ 64) : add? a b = some (a + b) :=
  if_pos h

theorem sub?_eq {a b : Nat} (h : b ≤ a) : sub? a b = some (a - b) :=
  if_pos h

theorem mul?_eq {a b : Nat} (h : a * b < 2 ^ 64) : mul? a b = some (a * b) :=
  if_pos h

theorem ceilDiv?_eq {a b : Nat} (hb : 0 < b) (ha : a < 2 ^ 64) :
    ceilDiv? a b = some ((a + b - 1) / b) := by
  have hsplit := Nat.div_add_mod a b
  have hrest := Nat.mod_lt a hb
  unfold ceilDiv?
  rw [if_neg (Nat.pos_iff_ne_zero.mp hb)]
  split
  next heven =>
    have hquotient : (a + b - 1) / b = a / b :=
      Nat.div_eq_of_lt_le (by rw [Nat.mul_comm]; omega)
        (by rw [Nat.succ_mul, Nat.mul_comm]; omega)
    rw [hquotient]
  next hodd =>
    have hquotient : (a + b - 1) / b = a / b + 1 :=
      Nat.div_eq_of_lt_le (by rw [Nat.succ_mul, Nat.mul_comm]; omega)
        (by rw [Nat.succ_mul, Nat.succ_mul, Nat.mul_comm]; omega)
    -- a rest is left, so the divisor is not one and the quotient far below the largest word
    have htwo : 2 ≤ b := by omega
    have hsmall := Nat.mul_le_mul_right (a / b) htwo
    rw [hquotient, add?_eq (by omega)]

end Word

namespace ByteRange

theorem between?_eq {first last : Nat} (h : first ≤ last) (hlast : last < 2 ^ 64) :
    between? first last = some ⟨first, last, h, hlast⟩ := by
  unfold between? between
  rw [dif_pos ⟨h, hlast⟩]
  rfl

/-- Of all ranges the one that holds every offset alone has too many bytes. -/
theorem length?_eq {r : ByteRange} (h : r.last - r.first < 2 ^ 64 - 1) :
    r.length? = some r.length := by
  unfold length?
  rw [Word.sub?_eq r.first_le_last]
  exact Word.add?_eq (by omega)

theorem length?_of_isSome {r : ByteRange} (h : r.length?.isSome = true) :
    r.length? = some r.length := by
  refine length?_eq ?_
  have hlast := r.last_lt
  have hne : r.last - r.first ≠ 2 ^ 64 - 1 := by
    intro hall
    simp [length?, Word.sub?_eq r.first_le_last, Word.add?, hall] at h
  omega

end ByteRange
end ImageUpload
