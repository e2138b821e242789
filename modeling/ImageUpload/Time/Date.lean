/-!
The proleptic Gregorian calendar.  Days are counted from the first day of the year
zero, which is a leap year.
-/

namespace ImageUpload

structure Date where
  year : Int
  month : Nat
  day : Nat
  deriving DecidableEq

namespace Date

def isLeap (year : Int) : Bool :=
  decide (year % 4 = 0) && (decide (year % 100 ≠ 0) || decide (year % 400 = 0))

def daysBeforeMonth (leap : Bool) (month : Nat) : Nat :=
  let past := match month with
    | 1 => 0
    | 2 => 31
    | 3 => 59
    | 4 => 90
    | 5 => 120
    | 6 => 151
    | 7 => 181
    | 8 => 212
    | 9 => 243
    | 10 => 273
    | 11 => 304
    | 12 => 334
    | _ => 365
  if leap && decide (2 < month) then past + 1 else past

def daysInMonth (leap : Bool) (month : Nat) : Nat :=
  daysBeforeMonth leap (month + 1) - daysBeforeMonth leap month

def isValid (d : Date) : Bool :=
  decide (1 ≤ d.month) && decide (d.month ≤ 12) && decide (1 ≤ d.day) &&
    decide (d.day ≤ daysInMonth (isLeap d.year) d.month)

def daysBeforeYear (year : Int) : Int :=
  365 * year + (year + 3) / 4 - (year + 99) / 100 + (year + 399) / 400

def toDays (d : Date) : Int :=
  daysBeforeYear d.year + daysBeforeMonth (isLeap d.year) d.month + d.day - 1

/-- The year a day lies in.  The mean length of a year gives it up to one. -/
def yearOfDays (days : Int) : Int :=
  let guess := 400 * days / 146097
  if days < daysBeforeYear guess then guess - 1
  else if daysBeforeYear (guess + 1) ≤ days then guess + 1
  else guess

/-- The month of a day of a year, counted from zero. -/
def monthOfDay (leap : Bool) (day : Nat) : Nat :=
  (([2, 3, 4, 5, 6, 7, 8, 9, 10, 11, 12].filter fun m => daysBeforeMonth leap m ≤ day).length) + 1

def ofDays (days : Int) : Date :=
  let year := yearOfDays days
  let leap := isLeap year
  let day := (days - daysBeforeYear year).toNat
  let month := monthOfDay leap day
  ⟨year, month, day - daysBeforeMonth leap month + 1⟩

/-- The first day of 1970. -/
def epoch : Int := 719528

end Date
end ImageUpload
