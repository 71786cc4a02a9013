import PathRules.Calendar.Day
import PathRules.Text.Numeral
/-!
Instants of universal time: a day, a second of the day and a nanosecond. A leap second is the second
before it with 10⁹ or more nanoseconds, so that instants are ordered by their three parts.
-/

namespace PathRules

open Calendar

/-- A point in universal time. -/
structure Instant where
  day : Day
  second : Nat
  nanosecond : Nat
  deriving DecidableEq, Repr

namespace Instant

def midnight (day : Day) : Instant := ⟨day, 0, 0⟩

/-- The seconds since 1970, leap seconds not counted. -/
def timestamp (t : Instant) : Int :=
  t.day.number * 86400 + t.second

/-- The instant at a number of seconds since 1970, if it lies in the supported years. -/
def ofTimestamp? (seconds : Int) : Option Instant :=
  let day : Day := ⟨seconds.fdiv 86400⟩
  if day.inRange then some ⟨day, (seconds.fmod 86400).toNat, 0⟩ else none

/-- The instant some seconds later; a leap second stays one. -/
def shift (t : Instant) (seconds : Int) : Instant :=
  let total := t.timestamp + seconds
  ⟨⟨total.fdiv 86400⟩, (total.fmod 86400).toNat, t.nanosecond⟩

def isBefore (a b : Instant) : Bool :=
  a.day.number < b.day.number ||
    (a.day.number == b.day.number &&
      (a.second < b.second || (a.second == b.second && a.nanosecond < b.nanosecond)))

/-- A year in four digits, with a sign and at least four digits outside 0 to 9999. -/
def yearText (year : Int) : String :=
  if 0 ≤ year ∧ year ≤ 9999 then Text.padded 4 year.toNat
  else (if year < 0 then "-" else "+") ++ Text.padded 4 year.natAbs

/-- The fraction of a second in no, three, six or nine digits. -/
def fractionText (nanosecond : Nat) : String :=
  if nanosecond = 0 then ""
  else if nanosecond % 1000000 = 0 then "." ++ Text.padded 3 (nanosecond / 1000000)
  else if nanosecond % 1000 = 0 then "." ++ Text.padded 6 (nanosecond / 1000)
  else "." ++ Text.padded 9 nanosecond

/-- The text of an instant as `2020-01-02T03:04:05.678Z`. -/
def text (t : Instant) : String :=
  let (month, day) := t.day.monthDay
  let (carry, nanosecond) :=
    if t.nanosecond ≥ 1000000000 then (1, t.nanosecond - 1000000000) else (0, t.nanosecond)
  yearText t.day.year ++ "-" ++ Text.padded 2 month ++ "-" ++ Text.padded 2 day ++ "T" ++
    Text.padded 2 (t.second / 3600) ++ ":" ++ Text.padded 2 (t.second / 60 % 60) ++ ":" ++
    Text.padded 2 (t.second % 60 + carry) ++ fractionText nanosecond ++ "Z"

end Instant
end PathRules
