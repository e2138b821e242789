import Mathlib.Data.Nat.Digits.Defs
import ImageUpload.Proofs.Time.Date
import ImageUpload.Time.Rfc3339

/-
An instant is read as it was written: `ofString?_zulu`.

A clock shows an instant and the instant is told from the clock, also in a leap second.  The
text of a clock is read part by part.  Each part is a run of digits of known width, and what
follows it is never a digit, so the reader stops where the writer did.
-/

namespace ImageUpload

/-! ## Clocks -/

namespace ClockTime

/-- What a clock can show that is written with two digits for each part. -/
structure Shows (c : ClockTime) : Prop where
  month : c.date.month < 100
  day : c.date.day < 100
  hour : c.hour < 100
  minute : c.minute < 100
  second : c.second < 100
  nanos : c.nanos < 1000000000

theorem ofInstant_shows (t : Instant) : (ofInstant t).Shows := by
  have hdate := Date.isValid_ofDays (t.seconds / 86400 + Date.epoch)
  have hnanos := t.nanos_lt
  simp only [Date.isValid, Bool.and_eq_true, decide_eq_true_eq] at hdate
  obtain ⟨⟨⟨-, hmonth⟩, -⟩, hday⟩ := hdate
  have hdays := Date.daysInMonth_le (Date.isLeap (Date.ofDays (t.seconds / 86400 + Date.epoch)).year)
    _ hmonth
  constructor
  · show (Date.ofDays _).month < 100
    omega
  · show (Date.ofDays _).day < 100
    omega
  · show (t.seconds % 86400).toNat / 3600 < 100
    omega
  · show (t.seconds % 86400).toNat / 60 % 60 < 100
    omega
  · simp only [ofInstant]
    split <;> omega
  · simp only [ofInstant]
    by_cases hleap : 1000000000 ≤ t.nanos <;> simp [hleap] <;> omega

theorem toInstant?_zero {c : ClockTime} {seconds : Int} {nanos : Nat} (hvalid : c.isValid = true)
    (hseconds : (c.date.toDays - Date.epoch) * 86400 +
      ((c.hour * 3600 + c.minute * 60 + if c.second = 60 then 59 else c.second : Nat) : Int) =
        seconds)
    (hnanos : (if c.second = 60 then c.nanos + 1000000000 else c.nanos) = nanos) :
    c.toInstant? 0 = Instant.of? seconds nanos := by
  simp only [toInstant?, hvalid, if_true, decide_eq_true_eq, hseconds, hnanos, Int.sub_zero]
  cases Instant.of? seconds nanos <;> rfl

theorem toInstant?_ofInstant (t : Instant) : (ofInstant t).toInstant? 0 = some t := by
  obtain ⟨seconds, nanos, hlow, hhigh, hnanos, hleap⟩ := t
  have hdate := Date.isValid_ofDays (seconds / 86400 + Date.epoch)
  have hdays := Date.toDays_ofDays (seconds / 86400 + Date.epoch)
  have hof : Instant.of? seconds nanos = some ⟨seconds, nanos, hlow, hhigh, hnanos, hleap⟩ := by
    rw [Instant.of?, dif_pos ⟨hlow, hhigh, hnanos, hleap⟩]
  rw [← hof]
  apply toInstant?_zero
  · simp only [isValid, Bool.and_eq_true, decide_eq_true_eq]
    simp only [ofInstant, hdate, decide_eq_true_eq]
    refine ⟨⟨⟨trivial, by omega⟩, by omega⟩, ?_⟩
    split <;> omega
  · by_cases h : 1000000000 ≤ nanos
    · -- The clock shows a sixtieth second, which stands for the fifty-ninth.
      have h59 := hleap h
      simp only [ofInstant, hdays, h, decide_true, if_true]
      rw [if_pos (by omega)]
      omega
    · simp only [ofInstant, hdays, h, decide_false, Bool.false_eq_true, if_false]
      rw [if_neg (by omega)]
      omega
  · by_cases h : 1000000000 ≤ nanos
    · have h59 := hleap h
      simp only [ofInstant, h, decide_true, if_true]
      rw [if_pos (by omega)]
      omega
    · simp only [ofInstant, h, decide_false, Bool.false_eq_true, if_false]
      rw [if_neg (by omega)]

end ClockTime

namespace Rfc3339

/-! ## Numbers -/

theorem isDigit_padded {width n : Nat} : ∀ c ∈ padded width n, c.isDigit = true := by
  intro c hc
  rcases List.mem_append.mp hc with hzero | hdigit
  · rw [(List.mem_replicate.mp hzero).2]
    decide
  · exact Nat.isDigit_of_mem_toDigits (by decide) (by decide) hdigit

theorem padded_ne_nil (width n : Nat) : padded width n ≠ [] := by
  intro h
  exact Nat.toDigits_ne_nil (List.append_eq_nil_iff.mp h).2

theorem length_padded {width n : Nat} (hwidth : 0 < width) (h : n < 10 ^ width) :
    (padded width n).length = width := by
  have hle := (Nat.length_toDigits_le_iff (by decide) hwidth).mpr h
  simp only [padded, List.length_append, List.length_replicate]
  omega

theorem ofDigitChars_padded (width n : Nat) : Nat.ofDigitChars 10 (padded width n) 0 = n := by
  rw [padded, Nat.ofDigitChars_append, Nat.ofDigitChars_replicate_zero, Nat.mul_zero]
  exact Nat.ofDigitChars_ten_toDigits

/-- The reader of a number takes the digits in front of what is none. -/
theorem number?_append {width : Nat} {digits rest : List Char} (hdigits : ∀ c ∈ digits, c.isDigit = true)
    (hne : digits ≠ []) (hwidth : digits.length ≤ width) (hrest : rest.takeWhile Char.isDigit = []) :
    number? width (digits ++ rest) = some (Nat.ofDigitChars 10 digits 0, rest) := by
  have htake : ((digits ++ rest).takeWhile Char.isDigit).take width = digits := by
    rw [List.takeWhile_append_of_pos hdigits, hrest, List.append_nil, List.take_of_length_le hwidth]
  simp [number?, htake, hne]

theorem skipBlanks_cons {c : Char} {rest : List Char} (h : isBlank c = false) :
    skipBlanks (c :: rest) = c :: rest := by
  simp [skipBlanks, h]

theorem not_blank_of_isDigit {c : Char} (h : c.isDigit = true) : isBlank c = false := by
  simp only [Char.isDigit, Bool.and_eq_true, decide_eq_true_eq, ge_iff_le,
    UInt32.le_iff_toNat_le] at h
  have hlow : 48 ≤ c.toNat := h.1
  have hhigh : c.toNat ≤ 57 := h.2
  simp [isBlank]
  omega

theorem skipBlanks_append {digits rest : List Char} (hdigits : ∀ c ∈ digits, c.isDigit = true)
    (hne : digits ≠ []) : skipBlanks (digits ++ rest) = digits ++ rest := by
  cases digits with
  | nil => exact absurd rfl hne
  | cons c digits => exact skipBlanks_cons (not_blank_of_isDigit (hdigits c List.mem_cons_self))

theorem part?_padded {n : Nat} {rest : List Char} (hn : n < 100)
    (hrest : rest.takeWhile Char.isDigit = []) : part? (padded 2 n ++ rest) = some (n, rest) := by
  rw [part?, skipBlanks_append isDigit_padded (padded_ne_nil 2 n),
    number?_append isDigit_padded (padded_ne_nil 2 n) (length_padded (by decide) hn).le hrest,
    ofDigitChars_padded]

theorem after?_cons {c : Char} {rest : List Char} (h : isBlank c = false) :
    after? c (c :: rest) = some rest := by
  simp [after?, skipBlanks_cons h]

/-! ## Parts -/

theorem number?_padded_all {width n : Nat} {rest : List Char}
    (hrest : rest.takeWhile Char.isDigit = []) :
    number? (padded width n ++ rest).length (padded width n ++ rest) = some (n, rest) := by
  rw [number?_append isDigit_padded (padded_ne_nil width n) (by simp) hrest, ofDigitChars_padded]

theorem year?_digits {digits rest : List Char} (hdigits : ∀ c ∈ digits, c.isDigit = true)
    (hne : digits ≠ []) :
    year? (digits ++ rest) = (number? 4 (digits ++ rest)).map fun (n, rest) => (n, rest) := by
  have hskip : skipBlanks (digits ++ rest) = digits ++ rest := skipBlanks_append hdigits hne
  have hsign : ∀ c : Char, c.isDigit = false → ∀ tail, digits ++ rest ≠ c :: tail := by
    intro c hc tail heq
    cases digits with
    | nil => exact hne rfl
    | cons d digits =>
      have hd := hdigits d List.mem_cons_self
      rw [(List.cons.inj heq).1, hc] at hd
      exact absurd hd (by decide)
  rw [year?, hskip]
  split
  next heq => exact absurd heq (hsign _ (by decide) _)
  next heq => exact absurd heq (hsign _ (by decide) _)
  next _ => rfl

theorem year?_yearText (year : Int) {rest : List Char} (hrest : rest.takeWhile Char.isDigit = []) :
    year? (yearText year ++ rest) = some (year, rest) := by
  by_cases hfour : 0 ≤ year ∧ year ≤ 9999
  · have hlength : (padded 4 year.toNat).length = 4 := length_padded (by decide) (by omega)
    rw [yearText, if_pos hfour, year?_digits isDigit_padded (padded_ne_nil 4 _),
      number?_append isDigit_padded (padded_ne_nil 4 _) hlength.le hrest, ofDigitChars_padded]
    simp [hfour.1]
  · by_cases hsign : 0 ≤ year
    · rw [yearText, if_neg hfour, if_pos hsign]
      show (number? (padded 4 year.toNat ++ rest).length (padded 4 year.toNat ++ rest)).map _ = _
      rw [number?_padded_all hrest]
      simp [hsign]
    · rw [yearText, if_neg hfour, if_neg hsign]
      show (number? (padded 4 (-year).toNat ++ rest).length
        (padded 4 (-year).toNat ++ rest)).map _ = _
      rw [number?_padded_all hrest]
      simp
      omega

/-- A fraction is read in front of the letter that ends the text. -/
theorem fraction?_padded {width n : Nat} (hwidth : 0 < width) (hnine : width ≤ 9)
    (h : n < 10 ^ width) :
    fraction? ('.' :: padded width n ++ ['Z']) = some (n * 10 ^ (9 - width), ['Z']) := by
  have htake : (padded width n ++ ['Z']).takeWhile Char.isDigit = padded width n := by
    rw [List.takeWhile_append_of_pos isDigit_padded]
    exact List.append_nil _
  have hlength := length_padded hwidth h
  have hall : (padded width n).take 9 = padded width n := List.take_of_length_le (by omega)
  show fraction? ('.' :: (padded width n ++ ['Z'])) = _
  simp [fraction?, htake, hall, padded_ne_nil, ofDigitChars_padded, hlength]

theorem fraction?_fractionText {nanos : Nat} (h : nanos < 1000000000) :
    fraction? (fractionText nanos ++ ['Z']) = some (nanos, ['Z']) := by
  rw [fractionText]
  split
  next hzero =>
    subst hzero
    rfl
  next _ =>
    split
    next hmillis =>
      rw [fraction?_padded (by decide) (by decide) (by omega)]
      have : nanos / 1000000 * 10 ^ (9 - 3) = nanos := by omega
      rw [this]
    next _ =>
      split
      next hmicros =>
        rw [fraction?_padded (by decide) (by decide) (by omega)]
        have : nanos / 1000 * 10 ^ (9 - 6) = nanos := by omega
        rw [this]
      next _ =>
        rw [fraction?_padded (by decide) (by decide) h]
        simp

/-! ## Texts -/

theorem bind_of_eq_some {α β : Type} {x : Option α} {a : α} (h : x = some a) (f : α → Option β) :
    (x >>= f) = f a := by
  rw [h]
  rfl

theorem takeWhile_fractionText (nanos : Nat) :
    (fractionText nanos ++ ['Z']).takeWhile Char.isDigit = [] := by
  simp only [fractionText]
  split
  · rfl
  · split
    · rfl
    · split <;> rfl

theorem ofList?_clockText {c : ClockTime} (h : c.Shows) :
    ofList? (clockText c ++ ['Z']) = c.toInstant? 0 := by
  have hdash : ∀ cs : List Char, ('-' :: cs).takeWhile Char.isDigit = [] := fun _ => rfl
  have hcolon : ∀ cs : List Char, (':' :: cs).takeWhile Char.isDigit = [] := fun _ => rfl
  simp only [clockText, List.append_assoc, List.cons_append]
  -- one line for each reader, in the order in which the text was written
  refine (bind_of_eq_some (year?_yearText c.date.year (hdash _)) _).trans ?_
  refine (bind_of_eq_some (after?_cons (by decide)) _).trans ?_
  refine (bind_of_eq_some (part?_padded h.month (hdash _)) _).trans ?_
  refine (bind_of_eq_some (after?_cons (by decide)) _).trans ?_
  refine (bind_of_eq_some (part?_padded h.day rfl) _).trans ?_
  refine (bind_of_eq_some rfl _).trans ?_
  refine (bind_of_eq_some (part?_padded h.hour (hcolon _)) _).trans ?_
  refine (bind_of_eq_some (after?_cons (by decide)) _).trans ?_
  refine (bind_of_eq_some (part?_padded h.minute (hcolon _)) _).trans ?_
  refine (bind_of_eq_some (after?_cons (by decide)) _).trans ?_
  refine (bind_of_eq_some (part?_padded h.second (takeWhile_fractionText _)) _).trans ?_
  refine (bind_of_eq_some (fraction?_fractionText h.nanos) _).trans ?_
  rfl

theorem ofString?_zulu (t : Instant) : ofString? (zulu t) = some t := by
  rw [ofString?, zulu, String.toList_ofList, ofList?_clockText (ClockTime.ofInstant_shows t)]
  exact ClockTime.toInstant?_ofInstant t

example : zulu ⟨-1, 1999999999, by decide, by decide, by decide, by decide⟩ =
    "1969-12-31T23:59:60.999999999Z" := by
  decide

end Rfc3339
end ImageUpload
