import ImageUpload.Json.Quoted

/-
String literals are read as they were written.

`encodeChar` writes a character in one of three ways, which `encodeChar_cases` tells apart:
as it is, behind a backslash, or by the number of its code unit.  `text?_encode` then says
that the text between the quotes denotes what was written.
-/

namespace ImageUpload
namespace Json
namespace Quoted

/-- A character is written as it is, with an escape of one letter, or by its number. -/
theorem encodeChar_cases (c : Char) :
    (encodeChar c = [c] ∧ c ≠ '"' ∧ c ≠ '\\' ∧ 32 ≤ c.toNat) ∨
      (∃ e, encodeChar c = ['\\', e] ∧ e ≠ 'u' ∧ escape? e = some c) ∨
      (c.toNat < 32 ∧
        encodeChar c = ['\\', 'u', '0', '0', hexDigit (c.toNat / 16), hexDigit (c.toNat % 16)]) := by
  by_cases hquote : c = '"'
  · exact .inr (.inl ⟨'"', by rw [hquote]; rfl, by decide, by rw [hquote]; rfl⟩)
  by_cases hbackslash : c = '\\'
  · exact .inr (.inl ⟨'\\', by rw [hbackslash]; rfl, by decide, by rw [hbackslash]; rfl⟩)
  unfold encodeChar
  rw [if_neg hquote, if_neg hbackslash]
  split
  next h => exact .inr (.inl ⟨'b', rfl, by decide, by rw [h]; rfl⟩)
  next _ =>
  split
  next h => exact .inr (.inl ⟨'f', rfl, by decide, by rw [h]; rfl⟩)
  next _ =>
  split
  next h => exact .inr (.inl ⟨'n', rfl, by decide, by rw [h]; rfl⟩)
  next _ =>
  split
  next h => exact .inr (.inl ⟨'r', rfl, by decide, by rw [h]; rfl⟩)
  next _ =>
  split
  next h => exact .inr (.inl ⟨'t', rfl, by decide, by rw [h]; rfl⟩)
  next _ =>
  split
  next h => exact .inr (.inr ⟨h, rfl⟩)
  next h => exact .inl ⟨rfl, hquote, hbackslash, Nat.le_of_not_lt h⟩

/-- The number of a control character is read back. -/
theorem unit?_of_lt {n : Nat} (h : n < 32) :
    unit? '0' '0' (hexDigit (n / 16)) (hexDigit (n % 16)) = some n := by
  have hall : ∀ m < 32, unit? '0' '0' (hexDigit (m / 16)) (hexDigit (m % 16)) = some m := by decide
  exact hall n h

theorem single?_of_lt {c : Char} (h : c.toNat < 32) : single? c.toNat = some c := by
  unfold single?
  rw [if_neg (by omega), Char.ofNat_toNat]

/-! ## The text -/

theorem decode_plain {c : Char} (hbackslash : c ≠ '\\') (hc : 32 ≤ c.toNat) (rest : List Char) :
    decode (c :: rest) = (decode rest).map (c :: ·) := by
  rw [decode.eq_def]
  split
  next heq => exact nomatch heq
  next heq => exact absurd (List.cons.inj heq).1 hbackslash
  next heq => exact absurd (List.cons.inj heq).1 hbackslash
  next heq => exact absurd (List.cons.inj heq).1 hbackslash
  next heq =>
    obtain ⟨rfl, rfl⟩ := List.cons.inj heq
    exact if_neg (Nat.not_lt.mpr hc)

theorem decode_escape {e c : Char} (hu : e ≠ 'u') (h : escape? e = some c) (rest : List Char) :
    decode ('\\' :: e :: rest) = (decode rest).map (c :: ·) := by
  rw [decode.eq_def]
  split
  next heq => exact nomatch heq
  next heq => exact absurd (List.cons.inj (List.cons.inj heq).2).1 hu
  next heq =>
    obtain ⟨rfl, rfl⟩ := List.cons.inj (List.cons.inj heq).2
    rw [h]
  next heq => exact nomatch heq
  next hnone _ heq =>
    obtain ⟨rfl, rfl⟩ := List.cons.inj heq
    exact absurd rfl (hnone e rest rfl)

theorem decode_number {a b c d ch : Char} {n : Nat} (h : unit? a b c d = some n)
    (hn : single? n = some ch) (rest : List Char) :
    decode ('\\' :: 'u' :: a :: b :: c :: d :: rest) = (decode rest).map (ch :: ·) := by
  rw [decode]
  simp only [h, hn]

theorem decode_encode (s : List Char) : decode (encode s) = some s := by
  induction s with
  | nil => rfl
  | cons c rest ih =>
    show decode (encodeChar c ++ encode rest) = _
    obtain ⟨hc, -, hbackslash, hle⟩ | ⟨e, hc, hu, he⟩ | ⟨hlt, hc⟩ := encodeChar_cases c
    · rw [hc, List.singleton_append, decode_plain hbackslash hle, ih]
      rfl
    · rw [hc]
      show decode ('\\' :: e :: encode rest) = _
      rw [decode_escape hu he, ih]
      rfl
    · rw [hc]
      show decode ('\\' :: 'u' :: '0' :: '0' :: _ :: _ :: encode rest) = _
      rw [decode_number (unit?_of_lt hlt) (single?_of_lt hlt), ih]
      rfl

/-! ## The form -/

theorem wellFormed_plain {c : Char} (hbackslash : c ≠ '\\') (hc : 32 ≤ c.toNat)
    (rest : List Symbol) : wellFormed (some c :: rest) = wellFormed rest := by
  rw [wellFormed.eq_def]
  split
  next heq => exact nomatch heq
  next heq => exact absurd (Option.some.inj (List.cons.inj heq).1) hbackslash
  next heq => exact absurd (Option.some.inj (List.cons.inj heq).1) hbackslash
  next heq => exact absurd (Option.some.inj (List.cons.inj heq).1) hbackslash
  next heq =>
    obtain ⟨hhead, rfl⟩ := List.cons.inj heq
    obtain rfl := Option.some.inj hhead
    rw [decide_eq_true hc, Bool.true_and]
  next heq => exact nomatch (List.cons.inj heq).1

theorem wellFormed_escape {e c : Char} (hu : e ≠ 'u') (h : escape? e = some c)
    (rest : List Symbol) : wellFormed (some '\\' :: some e :: rest) = wellFormed rest := by
  rw [wellFormed.eq_def]
  split
  next heq => exact nomatch heq
  next heq => exact absurd (Option.some.inj (List.cons.inj (List.cons.inj heq).2).1) hu
  next heq =>
    obtain ⟨hhead, rfl⟩ := List.cons.inj (List.cons.inj heq).2
    obtain rfl := Option.some.inj hhead
    rw [h]
    rfl
  next hnone heq =>
    obtain ⟨-, rfl⟩ := List.cons.inj heq
    exact absurd rfl (hnone e rest)
  next hnone _ heq =>
    obtain ⟨hhead, rfl⟩ := List.cons.inj heq
    exact (hnone e rest rfl (Option.some.inj hhead).symm).elim
  next heq => exact nomatch (List.cons.inj heq).1

theorem wellFormed_number {a b c d : Char} {n : Nat} (h : unit? a b c d = some n)
    (rest : List Symbol) :
    wellFormed (some '\\' :: some 'u' :: some a :: some b :: some c :: some d :: rest) =
      wellFormed rest := by
  rw [wellFormed, h]
  rfl

theorem wellFormed_encode (s : List Char) : wellFormed ((encode s).map some) = true := by
  induction s with
  | nil => rfl
  | cons c rest ih =>
    show wellFormed ((encodeChar c ++ encode rest).map some) = _
    obtain ⟨hc, -, hbackslash, hle⟩ | ⟨e, hc, hu, he⟩ | ⟨hlt, hc⟩ := encodeChar_cases c
    · rw [hc, List.singleton_append, List.map_cons, wellFormed_plain hbackslash hle, ih]
    · rw [hc]
      show wellFormed (some '\\' :: some e :: (encode rest).map some) = _
      rw [wellFormed_escape hu he, ih]
    · rw [hc]
      show wellFormed (some '\\' :: some 'u' :: some '0' :: some '0' :: some _ :: some _ ::
        (encode rest).map some) = _
      rw [wellFormed_number (unit?_of_lt hlt), ih]

/-- What stands between the quotes denotes the text that was written. -/
theorem text?_encode (s : String) : text? ((encode s.toList).map some) = some s := by
  have hall : ((encode s.toList).map some).mapM id = some (encode s.toList) := by
    rw [List.mapM_map]
    exact (List.mapM_pure (m := Option) (f := id)).trans (congrArg some (List.map_id _))
  unfold text?
  rw [hall, Option.bind_some, decode_encode, Option.map_some, String.ofList_toList]

end Quoted
end Json
end ImageUpload
