import ImageUpload.Bytes.Base64

/-
Bytes are read back from the letters that write them.

Each group of three bytes is one number of four digits to the base of sixty-four, so a group
comes back by division alone.  No letter is the padding sign, so a whole group is never taken
for a shorter one.
-/

namespace ImageUpload
namespace Base64

theorem value?_letter : ∀ n < 64, value? (letter n) = some n := by decide

theorem letter_ne_padding : ∀ n < 64, letter n ≠ '=' := by decide

/-! ## Groups -/

theorem toUInt8_of_eq {n : Nat} {a : UInt8} (h : n % 256 = a.toNat) : n.toUInt8 = a := by
  apply UInt8.toNat_inj.mp
  simpa using h

theorem one?_letters (a : UInt8) :
    one? (letter (a.toNat * 16 / 64)) (letter (a.toNat * 16 % 64)) = some [a] := by
  have ha := a.toNat_lt
  have hn : a.toNat * 16 / 64 * 64 + a.toNat * 16 % 64 = a.toNat * 16 := by omega
  simp only [one?, value?_letter (a.toNat * 16 / 64) (by omega),
    value?_letter (a.toNat * 16 % 64) (by omega), Option.bind_eq_bind, Option.bind_some, hn]
  rw [if_pos (by omega), toUInt8_of_eq (a := a) (by omega)]
  rfl

theorem two?_letters (a b : UInt8) :
    let n := (a.toNat * 256 + b.toNat) * 4
    two? (letter (n / 4096)) (letter (n / 64 % 64)) (letter (n % 64)) = some [a, b] := by
  intro n
  have ha := a.toNat_lt
  have hb := b.toNat_lt
  have hsum : (n / 4096 * 64 + n / 64 % 64) * 64 + n % 64 = n := by omega
  simp only [two?, value?_letter (n / 4096) (by omega), value?_letter (n / 64 % 64) (by omega),
    value?_letter (n % 64) (by omega), Option.bind_eq_bind, Option.bind_some, hsum]
  rw [if_pos (by omega), toUInt8_of_eq (a := a) (by omega), toUInt8_of_eq (a := b) (by omega)]
  rfl

theorem three?_letters (a b c : UInt8) :
    let n := (a.toNat * 256 + b.toNat) * 256 + c.toNat
    three? (letter (n / 262144)) (letter (n / 4096 % 64)) (letter (n / 64 % 64)) (letter (n % 64)) =
      some [a, b, c] := by
  intro n
  have ha := a.toNat_lt
  have hb := b.toNat_lt
  have hc := c.toNat_lt
  have hsum : ((n / 262144 * 64 + n / 4096 % 64) * 64 + n / 64 % 64) * 64 + n % 64 = n := by omega
  simp only [three?, value?_letter (n / 262144) (by omega), value?_letter (n / 4096 % 64) (by omega),
    value?_letter (n / 64 % 64) (by omega), value?_letter (n % 64) (by omega), Option.bind_eq_bind,
    Option.bind_some, hsum]
  rw [toUInt8_of_eq (a := a) (by omega), toUInt8_of_eq (a := b) (by omega),
    toUInt8_of_eq (a := c) (by omega)]
  rfl

/-! ## Texts -/

theorem decodeList?_group {a b c d : Char} {rest : List Char} (hd : d ≠ '=') :
    decodeList? (a :: b :: c :: d :: rest) =
      (three? a b c d).bind fun group => (decodeList? rest).map (group ++ ·) := by
  rw [decodeList?]
  · cases three? a b c d <;> cases decodeList? rest <;> rfl
  · intro _ hd' _
    exact hd hd'
  · intro hd' _
    exact hd hd'

theorem decodeList?_two {a b c : Char} (hc : c ≠ '=') : decodeList? [a, b, c, '='] = two? a b c := by
  rw [decodeList?]
  exact hc

theorem decodeList?_encodeList (l : List UInt8) : decodeList? (encodeList l) = some l := by
  induction l using encodeList.induct with
  | case1 => rfl
  | case2 a => exact one?_letters a
  | case3 a b =>
    -- a third letter tells two bytes from one
    rw [encodeList, decodeList?_two (letter_ne_padding _ (by omega))]
    exact two?_letters a b
  | case4 a b c rest ih =>
    rw [encodeList, decodeList?_group (letter_ne_padding _ (by omega)), three?_letters a b c, ih]
    rfl

theorem decode?_encode (b : ByteArray) : decode? (encode b) = some b := by
  have hbytes : b.data.toList.toByteArray = b := by
    apply ByteArray.ext
    simp
  simp only [decode?, encode, String.toList_ofList, decodeList?_encodeList, Option.map_some, hbytes]

end Base64
end ImageUpload
