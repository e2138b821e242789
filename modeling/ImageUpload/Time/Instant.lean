import ImageUpload.Time.Date

namespace ImageUpload

/-- A point in universal time: the seconds since the start of 1970 and the
nanoseconds within the second.  During a leap second the clock stays in the last
second of its minute and the nanoseconds run on past a thousand million.  The
seconds reach from the start of the year -262143 to the end of the year 262142. -/
structure Instant where
  seconds : Int
  nanos : Nat
  le_seconds : -8334601228800 ≤ seconds
  seconds_le : seconds ≤ 8210266876799
  nanos_lt : nanos < 2000000000
  leap : 1000000000 ≤ nanos → seconds % 60 = 59
  deriving DecidableEq

namespace Instant

def of? (seconds : Int) (nanos : Nat) : Option Instant :=
  if h : -8334601228800 ≤ seconds ∧ seconds ≤ 8210266876799 ∧ nanos < 2000000000 ∧
      (1000000000 ≤ nanos → seconds % 60 = 59) then
    some ⟨seconds, nanos, h.1, h.2.1, h.2.2.1, h.2.2.2⟩
  else none

end Instant

/-- The date and time of day of an instant.  A second of sixty is a leap second. -/
structure ClockTime where
  date : Date
  hour : Nat
  minute : Nat
  second : Nat
  nanos : Nat

namespace ClockTime

def ofInstant (t : Instant) : ClockTime :=
  let day := t.seconds / 86400
  let rest := (t.seconds % 86400).toNat
  let second := rest % 60
  let leap := decide (1000000000 ≤ t.nanos)
  { date := Date.ofDays (day + Date.epoch)
    hour := rest / 3600
    minute := rest / 60 % 60
    second := if leap then second + 1 else second
    nanos := if leap then t.nanos - 1000000000 else t.nanos }

def isValid (c : ClockTime) : Bool :=
  c.date.isValid && decide (c.hour < 24) && decide (c.minute < 60) && decide (c.second ≤ 60)

/-- The instant of a clock that runs `offset` seconds ahead of universal time. -/
def toInstant? (c : ClockTime) (offset : Int) : Option Instant :=
  let leap := decide (c.second = 60)
  let second := if leap then 59 else c.second
  let ofDay : Nat := c.hour * 3600 + c.minute * 60 + second
  let seconds := (c.date.toDays - Date.epoch) * 86400 + ofDay
  let nanos := if leap then c.nanos + 1000000000 else c.nanos
  if c.isValid then (Instant.of? seconds nanos).bind fun _ => Instant.of? (seconds - offset) nanos
  else none

end ClockTime
end ImageUpload
