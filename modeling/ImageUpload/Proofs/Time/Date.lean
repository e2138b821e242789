import ImageUpload.Time.Date

/-
The calendar and the count of days are inverse to each other.

A year has as many days as lie between two of its beginnings, and a month as many as lie
between two of its own.  The mean length of a year gives the year of a day up to one, so one
look at the neighbours settles it.
-/

namespace ImageUpload
namespace Date

/-! ## Years -/

theorem daysBeforeYear_succ (year : Int) :
    daysBeforeYear (year + 1) = daysBeforeYear year + if isLeap year then 366 else 365 := by
  by_cases h4 : year % 4 = 0
  · by_cases h100 : year % 100 = 0
    · by_cases h400 : year % 400 = 0
      · simp only [isLeap, daysBeforeYear, h4, h400]
        simp
        omega
      · simp only [isLeap, daysBeforeYear, h4, h100, h400]
        simp
        omega
    · simp only [isLeap, daysBeforeYear, h4]
      simp
      omega
  · simp only [isLeap, daysBeforeYear, h4]
    simp
    omega

/-- The mean length of a year is off by less than two days. -/
theorem daysBeforeYear_near (year : Int) :
    146097 * year - 396 ≤ 400 * daysBeforeYear year ∧
      400 * daysBeforeYear year ≤ 146097 * year + 699 := by
  unfold daysBeforeYear
  omega

theorem daysBeforeYear_le (days : Int) : daysBeforeYear (yearOfDays days) ≤ days := by
  -- the year before the guess is early enough in any case
  have hguess := daysBeforeYear_near (400 * days / 146097 - 1)
  unfold yearOfDays
  simp only
  split
  next _ => omega
  next _ =>
    split
    next h => exact h
    next _ => omega

theorem lt_daysBeforeYear (days : Int) : days < daysBeforeYear (yearOfDays days + 1) := by
  have hguess := daysBeforeYear_near (400 * days / 146097 + 1 + 1)
  unfold yearOfDays
  simp only
  split
  next h =>
    rw [Int.sub_add_cancel]
    exact h
  next _ =>
    split
    next _ => omega
    next _ => omega

/-! ## Months -/

/-- The months part the days of a year. -/
theorem monthOfDay_spec (leap : Bool) : ∀ day < (if leap then 366 else 365),
    monthOfDay leap day ≤ 12 ∧ daysBeforeMonth leap (monthOfDay leap day) ≤ day ∧
      day < daysBeforeMonth leap (monthOfDay leap day + 1) := by
  cases leap <;> decide +kernel

theorem daysInMonth_le (leap : Bool) : ∀ month ≤ 12, daysInMonth leap month ≤ 31 := by
  cases leap <;> decide

theorem one_le_monthOfDay (leap : Bool) (day : Nat) : 1 ≤ monthOfDay leap day := by
  unfold monthOfDay
  omega

/-! ## Days -/

/-- The number of a day within its year. -/
theorem dayOfYear_lt (days : Int) :
    (days - daysBeforeYear (yearOfDays days)).toNat <
      if isLeap (yearOfDays days) then 366 else 365 := by
  have hle := daysBeforeYear_le days
  have hlt := lt_daysBeforeYear days
  rw [daysBeforeYear_succ] at hlt
  by_cases hleap : isLeap (yearOfDays days) = true
  · rw [if_pos hleap] at hlt ⊢
    omega
  · rw [if_neg hleap] at hlt ⊢
    omega

theorem isValid_ofDays (days : Int) : (ofDays days).isValid = true := by
  have hday := dayOfYear_lt days
  obtain ⟨hmonth, hbefore, hbehind⟩ := monthOfDay_spec _ _ hday
  have hone := one_le_monthOfDay (isLeap (yearOfDays days))
    (days - daysBeforeYear (yearOfDays days)).toNat
  simp only [isValid, Bool.and_eq_true, decide_eq_true_eq]
  simp only [ofDays, daysInMonth]
  omega

theorem toDays_ofDays (days : Int) : (ofDays days).toDays = days := by
  have hle := daysBeforeYear_le days
  obtain ⟨-, hbefore, -⟩ := monthOfDay_spec _ _ (dayOfYear_lt days)
  simp only [toDays, ofDays]
  omega

end Date
end ImageUpload
