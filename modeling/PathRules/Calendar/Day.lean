/-!
Days of the proleptic Gregorian calendar. A day is counted from 1 January 1970; the year and the
ordinal day in it, the month, the weekday and the week of the year are read off that count.
-/

namespace PathRules.Calendar

def isLeap (year : Int) : Bool :=
  year % 4 == 0 && (year % 100 != 0 || year % 400 == 0)

def monthLengths (year : Int) : List Nat :=
  [31, if isLeap year then 29 else 28, 31, 30, 31, 30, 31, 31, 30, 31, 30, 31]

def yearLength (year : Int) : Nat :=
  if isLeap year then 366 else 365

/-- The number of days from 1 January of the year 1 to 1 January of the given year. -/
def daysBeforeYear (year : Int) : Int :=
  let past := year - 1
  365 * past + past.fdiv 4 - past.fdiv 100 + past.fdiv 400

/-- The number of days from 1 January of the year 1 to 1 January 1970. -/
def epochShift : Int := 719162

/-- The years that a day can lie in. -/
def firstYear : Int := -262143

def lastYear : Int := 262142

/-- A day, counted from 1 January 1970. -/
structure Day where
  number : Int
  deriving DecidableEq, Repr

/-- The days of a week, Monday first. -/
inductive Weekday where
  | monday | tuesday | wednesday | thursday | friday | saturday | sunday
  deriving DecidableEq, Repr

namespace Weekday

/-- All days of the week, Monday first. -/
def all : List Weekday :=
  [monday, tuesday, wednesday, thursday, friday, saturday, sunday]

/-- The place of a day in the week, with 0 for Monday. -/
def index : Weekday → Nat
  | monday => 0
  | tuesday => 1
  | wednesday => 2
  | thursday => 3
  | friday => 4
  | saturday => 5
  | sunday => 6

/-- The day at a place of the week, counted around. -/
def ofIndex (n : Nat) : Weekday :=
  (all[n % 7]?).getD monday

/-- How many days after the last `start` a day is. -/
def daysSince (day start : Weekday) : Nat :=
  (day.index + 7 - start.index) % 7

end Weekday

namespace Day

/-- The day at an ordinal place of a year, if the year has it. -/
def ofOrdinal? (year : Int) (ordinal : Int) : Option Day :=
  if firstYear ≤ year ∧ year ≤ lastYear ∧ 1 ≤ ordinal ∧ ordinal ≤ yearLength year then
    some ⟨daysBeforeYear year + ordinal - 1 - epochShift⟩
  else none

/-- The day of a month of a year, if there is one. -/
def ofDate? (year month day : Int) : Option Day :=
  let lengths := monthLengths year
  if 1 ≤ month ∧ month ≤ 12 ∧ 1 ≤ day ∧ day ≤ (lengths.getD (month.toNat - 1) 0) then
    ofOrdinal? year ((lengths.take (month.toNat - 1)).foldl (fun n (k : Nat) => n + k) day)
  else none

def year (d : Day) : Int :=
  let n := d.number + epochShift
  let guess := (n * 400).fdiv 146097 + 1
  if daysBeforeYear (guess + 1) ≤ n then guess + 1
  else if n < daysBeforeYear guess then guess - 1
  else guess

/-- The place of a day in its year, with 1 for 1 January. -/
def ordinal (d : Day) : Int :=
  d.number + epochShift - daysBeforeYear d.year + 1

/-- The month and the day in it of an ordinal place, given the lengths of the months from `month`
on. -/
def monthDayAt (month : Nat) (ordinal : Nat) : List Nat → Nat × Nat
  | [] => (month, ordinal)
  | length :: rest =>
    if ordinal ≤ length then (month, ordinal) else monthDayAt (month + 1) (ordinal - length) rest

def monthDay (d : Day) : Nat × Nat :=
  monthDayAt 1 d.ordinal.toNat (monthLengths d.year)

def quarter (d : Day) : Nat :=
  (d.monthDay.1 + 2) / 3

def weekday (d : Day) : Weekday :=
  Weekday.ofIndex ((d.number + 3) % 7).toNat

/-- The week of the year when weeks begin on `start` and the days before the first such day are
week 0. -/
def weekFrom (d : Day) (start : Weekday) : Int :=
  (d.ordinal - d.weekday.daysSince start + 6) / 7

/-- The year and week of the ISO calendar: weeks begin on Monday and belong to the year of their
Thursday. -/
def isoWeek (d : Day) : Int × Int :=
  let thursday : Day := ⟨d.number - d.weekday.index + 3⟩
  (thursday.year, (thursday.ordinal - 1) / 7 + 1)

/-- Whether a day lies in the years that are supported. -/
def inRange (d : Day) : Bool :=
  firstYear ≤ d.year && d.year ≤ lastYear

/-- The day of a week of the ISO calendar, if the year has that week. The day has to lie in a
supported year; the ISO year it belongs to may be the one before the first or behind the last. -/
def ofIsoWeek? (year week : Int) (weekday : Weekday) : Option Day :=
  let first : Day := ⟨daysBeforeYear year - epochShift⟩
  let fourth : Day := ⟨first.number + 3⟩
  let monday := fourth.number - fourth.weekday.index
  let day : Day := ⟨monday + (week - 1) * 7 + weekday.index⟩
  if day.isoWeek = (year, week) ∧ day.inRange then some day else none

/-- The day of a week of the year when weeks begin on `start`. -/
def ofWeek? (year week : Int) (weekday start : Weekday) : Option Day := do
  let first ← ofOrdinal? year 1
  let firstStart : Int := 1 + start.daysSince first.weekday
  ofOrdinal? year (firstStart + (week - 1) * 7 + weekday.daysSince start)

end Day
end PathRules.Calendar
