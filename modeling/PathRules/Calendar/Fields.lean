import PathRules.Calendar.Instant
import PathRules.Calendar.Pattern
import PathRules.Keyed.Basic
/-!
The fields of a date and a time that a text gives, and the instant that they determine. A field has
one value: giving it a second one is an error unless both are equal. More fields than needed may be
given; the result agrees with every one of them.
-/

namespace PathRules.Calendar

/-- Why fields determine no date or time. -/
inductive FieldError where
  /-- A field is outside its range, or the result is outside the supported years. -/
  | outOfRange
  /-- Two fields contradict each other. -/
  | contradiction
  /-- Too few fields are known. -/
  | notEnough
  deriving DecidableEq, Repr

def Field.range : Field → Int × Int
  | year | isoYear => (-2147483648, 2147483647)
  | century | isoCentury => (0, 2147483647)
  | yearOfCentury | isoYearOfCentury => (0, 99)
  | quarter => (1, 4)
  | month => (1, 12)
  | day => (1, 31)
  | weekFromSunday | weekFromMonday => (0, 53)
  | isoWeek => (1, 53)
  | weekday => (0, 6)
  | ordinal => (1, 366)
  | halfDay => (0, 1)
  | hourOfHalfDay => (0, 11)
  | minute => (0, 59)
  | second => (0, 60)
  | nanosecond => (0, 999999999)
  | timestamp => (-9223372036854775808, 9223372036854775807)
  | offset => (-2147483648, 2147483647)

/-- The known fields with their values. -/
abbrev Fields := List (Field × Int)

namespace Fields

def set (fields : Fields) (field : Field) (value : Int) : Except FieldError Fields :=
  let (least, most) := field.range
  if value < least ∨ most < value then .error .outOfRange
  else
    match Keyed.get? fields field with
    | none => .ok (Keyed.put fields field value)
    | some known => if known = value then .ok fields else .error .contradiction

/-- Gives the fields that a number in a text stands for. -/
def setNumber (fields : Fields) (what : Number) (value : Int) : Except FieldError Fields :=
  match what with
  | .plain field => fields.set field value
  | .hour =>
    if 0 ≤ value ∧ value ≤ 23 then do
      let fields ← fields.set .halfDay (value / 12)
      fields.set .hourOfHalfDay (value % 12)
    else .error .outOfRange
  | .hour12 =>
    if 1 ≤ value ∧ value ≤ 12 then fields.set .hourOfHalfDay (value % 12) else .error .outOfRange
  | .sundayZero =>
    if 0 ≤ value ∧ value ≤ 6 then fields.set .weekday ((value + 6) % 7) else .error .outOfRange
  | .mondayOne =>
    if 1 ≤ value ∧ value ≤ 7 then fields.set .weekday (value - 1) else .error .outOfRange

def allows (fields : Fields) (field : Field) (value : Int) : Bool :=
  match Keyed.get? fields field with
  | none => true
  | some known => known == value

/-- The year that a full year, a century and a year of the century determine. A year of the century
alone lies in 1970 to 2069. -/
def wholeYear? (year hundreds rest : Option Int) : Except FieldError (Option Int) :=
  match year, hundreds, rest with
  | year, none, none => .ok year
  | some year, hundreds, rest =>
    if year < 0 then .error .contradiction
    else if hundreds.getD (year / 100) = year / 100 ∧ rest.getD (year % 100) = year % 100 then
      .ok (some year)
    else .error .contradiction
  | none, some hundreds, some rest =>
    let year := hundreds * 100 + rest
    if year ≤ 2147483647 then .ok (some year) else .error .outOfRange
  | none, none, some rest => .ok (some (rest + if rest < 70 then 2000 else 1900))
  | none, some _, none => .error .notEnough

/-- Whether a century and a year of the century allow a year; negative years have neither. -/
def allowsYear (fields : Fields) (whole hundreds rest : Field) (year : Int) : Bool :=
  fields.allows whole year &&
    if year ≥ 0 then fields.allows hundreds (year / 100) && fields.allows rest (year % 100)
    else !Keyed.has fields hundreds && !Keyed.has fields rest

/-- Whether every known field of a date agrees with a day. -/
def allowsDay (fields : Fields) (d : Day) : Bool :=
  let (month, day) := d.monthDay
  let (isoYear, isoWeek) := d.isoWeek
  fields.allowsYear .year .century .yearOfCentury d.year &&
    fields.allows .month month && fields.allows .day day && fields.allows .quarter d.quarter &&
    fields.allowsYear .isoYear .isoCentury .isoYearOfCentury isoYear &&
    fields.allows .isoWeek isoWeek && fields.allows .weekday d.weekday.index &&
    fields.allows .ordinal d.ordinal &&
    fields.allows .weekFromSunday (d.weekFrom .sunday) &&
    fields.allows .weekFromMonday (d.weekFrom .monday)

/-- The day of a week that begins on `start`. A week that does not reach into the year contradicts
it. -/
def weekDay (year week : Int) (weekday start : Weekday) : Except FieldError Day :=
  if (Day.ofOrdinal? year 1).isNone then .error .outOfRange
  else
    match Day.ofWeek? year week weekday start with
    | some d => .ok d
    | none => .error .contradiction

/-- The day that the fields name in the first of the possible ways: by month and day, by ordinal, by
week and weekday, by ISO week and weekday. -/
def namedDay (fields : Fields) : Except FieldError Day := do
  let get := Keyed.get? fields
  let orRange (d : Option Day) : Except FieldError Day :=
    match d with
    | some d => .ok d
    | none => .error .outOfRange
  let year ← wholeYear? (get .year) (get .century) (get .yearOfCentury)
  let isoYear ← wholeYear? (get .isoYear) (get .isoCentury) (get .isoYearOfCentury)
  let weekday := (get .weekday).map fun n => Weekday.ofIndex n.toNat
  match year, get .month, get .day with
  | some year, some month, some day => orRange (Day.ofDate? year month day)
  | _, _, _ =>
  match year, get .ordinal with
  | some year, some ordinal => orRange (Day.ofOrdinal? year ordinal)
  | _, _ =>
  match year, get .weekFromSunday, weekday with
  | some year, some week, some weekday => weekDay year week weekday .sunday
  | _, _, _ =>
  match year, get .weekFromMonday, weekday with
  | some year, some week, some weekday => weekDay year week weekday .monday
  | _, _, _ =>
  match isoYear, get .isoWeek, weekday with
  | some year, some week, some weekday => orRange (Day.ofIsoWeek? year week weekday)
  | _, _, _ => .error .notEnough

def toDay (fields : Fields) : Except FieldError Day := do
  let d ← fields.namedDay
  if fields.allowsDay d then .ok d else .error .contradiction

/-- The second and nanosecond of the day that the fields determine. Hour and minute are needed; the
sixtieth second is a leap second. -/
def toTime (fields : Fields) : Except FieldError (Nat × Nat) := do
  let need (field : Field) : Except FieldError Int :=
    match Keyed.get? fields field with
    | some value => .ok value
    | none => .error .notEnough
  let half ← need .halfDay
  let hour ← need .hourOfHalfDay
  let minute ← need .minute
  let second := Keyed.get? fields .second
  let (whole, leap) := if second = some 60 then (59, 1000000000) else (second.getD 0, 0)
  let nanosecond := Keyed.get? fields .nanosecond
  if nanosecond.isSome && second.isNone then .error .notEnough
  else
    .ok ((((half * 12 + hour) * 60 + minute) * 60 + whole).toNat, (leap + nanosecond.getD 0).toNat)

/-- Whether a timestamp, if one is known, belongs to an instant that an offset was not yet taken
from. A leap second has the timestamps of both its neighbours. -/
def allowsTimestamp (fields : Fields) (t : Instant) (offset : Int) : Bool :=
  match Keyed.get? fields .timestamp with
  | none => true
  | some known =>
    let expected := t.timestamp - offset
    known == expected || (t.nanosecond ≥ 1000000000 && known == expected + 1)

/-- Completes the fields from a timestamp. The sixtieth second cannot be read off a timestamp, so it
is kept when the timestamp is that of the second before or after. -/
def fillFromTimestamp (fields : Fields) (timestamp : Int) : Except FieldError Fields := do
  let .some t := Instant.ofTimestamp? timestamp | .error .outOfRange
  let isLeap := Keyed.get? fields .second == some 60
  let .some t := (if isLeap then
      match t.second % 60 with
      | 59 => some t
      | 0 => some (t.shift (-1))
      | _ => none
    else some t) | .error .contradiction
  let fields ← if isLeap then .ok fields else fields.set .second (t.second % 60)
  let fields ← fields.set .year t.day.year
  let fields ← fields.set .ordinal t.day.ordinal
  let fields ← fields.setNumber .hour (t.second / 3600)
  fields.set .minute (t.second / 60 % 60)

/-- The local instant that the fields determine, given the offset of the local time. -/
def toInstant (fields : Fields) (offset : Int) : Except FieldError Instant :=
  match fields.toDay, fields.toTime with
  | .ok day, .ok (second, nanosecond) =>
    let t : Instant := ⟨day, second, nanosecond⟩
    if fields.allowsTimestamp t offset then .ok t else .error .contradiction
  | day, time =>
    let faults := [day.map fun _ => (), time.map fun _ => ()].filterMap fun
      | .ok _ => none
      | .error e => some e
    match Keyed.get? fields .timestamp with
    | none => .error (faults.headD .notEnough)
    | some timestamp =>
      if faults.contains .outOfRange then .error .outOfRange
      else if faults.contains .contradiction then .error .contradiction
      else do
        let full ← fields.fillFromTimestamp (timestamp + offset)
        let day ← full.toDay
        let (second, nanosecond) ← full.toTime
        .ok ⟨day, second, nanosecond⟩

end Fields
end PathRules.Calendar
