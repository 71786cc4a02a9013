import PathRules.Text.Blank
/-!
Date patterns: text in which `%` introduces a part of a date or a time. Reading a pattern never
fails; a `%` that introduces nothing known becomes a part that no text matches.
-/

namespace PathRules.Calendar

/-- The numbers that a date and a time consist of. -/
inductive Field where
  | year | century | yearOfCentury
  | isoYear | isoCentury | isoYearOfCentury
  | quarter | month | day
  | weekFromSunday | weekFromMonday | isoWeek | weekday | ordinal
  | halfDay | hourOfHalfDay | minute | second | nanosecond
  | timestamp | offset
  deriving DecidableEq, Repr

/-- How a number in a text becomes a field. -/
inductive Number where
  /-- The number is the field. -/
  | plain (field : Field)
  /-- The hour from 0 to 23, which is two fields. -/
  | hour
  /-- The hour from 1 to 12, where 12 comes first. -/
  | hour12
  /-- The weekday with 0 for Sunday. -/
  | sundayZero
  /-- The weekday with 1 for Monday. -/
  | mondayOne
  deriving DecidableEq, Repr

inductive Part where
  /-- The text itself. -/
  | literal (text : List Char)
  /-- Any blanks, or none. -/
  | gap
  /-- A number of at most `width` digits, after any blanks; a signed one may be longer. -/
  | number (what : Number) (width : Option Nat) (signed : Bool)
  /-- The name of a month, in full or its first three letters. -/
  | month (long : Bool)
  /-- The name of a weekday, in full or its first three letters. -/
  | weekday (long : Bool)
  /-- `am` or `pm`. -/
  | halfDay
  /-- A point and a fraction of a second, or nothing. -/
  | fraction (digits : Option Nat)
  /-- A fraction of a second in a fixed number of digits, without point. -/
  | fractionDigits (digits : Nat)
  /-- The name of a time zone, which is skipped. -/
  | zoneName
  /-- An offset from universal time; `permissive` allows `Z` and an offset without minutes. -/
  | offset (permissive : Bool)
  /-- A date, a time and an offset, with blanks allowed between them. -/
  | dateTime
  /-- No text matches. -/
  | unknown
  deriving DecidableEq, Repr

namespace Part

def two (field : Field) : Part := .number (.plain field) (some 2) false

/-- A year of four digits, or of any number of digits behind a sign. -/
def fourDigitYear (field : Field) : Part := .number (.plain field) (some 4) true

def hour : Part := .number .hour (some 2) false

/-- The hour of half a day in two digits. -/
def hour12 : Part := .number .hour12 (some 2) false

def mark (c : Char) : Part := .literal [c]

def isoDate : List Part :=
  [fourDigitYear .year, mark '-', two .month, mark '-', two .day]

/-- Month, day and year of the century with slashes. -/
def slashDate : List Part :=
  [two .month, mark '/', two .day, mark '/', two .yearOfCentury]

def hourMinute : List Part :=
  [hour, mark ':', two .minute]

def clock : List Part :=
  hourMinute ++ [mark ':', two .second]

/-- The part that a letter stands for when it is a number. -/
def ofNumberLetter? : Char → Option Part
  | 'C' => some (two .century)
  | 'G' => some (fourDigitYear .isoYear)
  | 'H' => some hour
  | 'I' => some hour12
  | 'M' => some (two .minute)
  | 'S' => some (two .second)
  | 'U' => some (two .weekFromSunday)
  | 'V' => some (two .isoWeek)
  | 'W' => some (two .weekFromMonday)
  | 'Y' => some (fourDigitYear .year)
  | 'd' => some (two .day)
  | 'e' => some (two .day)
  | 'f' => some (.number (.plain .nanosecond) (some 9) false)
  | 'g' => some (two .isoYearOfCentury)
  | 'j' => some (.number (.plain .ordinal) (some 3) false)
  | 'k' => some hour
  | 'l' => some hour12
  | 'm' => some (two .month)
  | 'q' => some (.number (.plain .quarter) (some 1) false)
  | 's' => some (.number (.plain .timestamp) none false)
  | 'u' => some (.number .mondayOne (some 1) false)
  | 'w' => some (.number .sundayZero (some 1) false)
  | 'y' => some (two .yearOfCentury)
  | _ => none

def ofLetter (c : Char) : List Part :=
  match ofNumberLetter? c with
  | some part => [part]
  | none =>
    match c with
    | 'A' => [.weekday true]
    | 'B' => [.month true]
    | 'D' => slashDate
    | 'F' => isoDate
    | 'P' => [.halfDay]
    | 'R' => hourMinute
    | 'T' => clock
    | 'X' => clock
    | 'Z' => [.zoneName]
    | 'a' => [.weekday false]
    | 'b' => [.month false]
    | 'c' => [.weekday false, .gap, .month false, .gap, two .day, .gap] ++ clock ++
        [.gap, fourDigitYear .year]
    | 'h' => [.month false]
    | 'n' => [.gap]
    | 'p' => [.halfDay]
    | 'r' => [hour12, mark ':', two .minute, mark ':', two .second, .gap, .halfDay]
    | 't' => [.gap]
    | 'v' => [two .day, mark '-', .month false, mark '-', fourDigitYear .year]
    | 'x' => slashDate
    | 'z' => [.offset false]
    | '+' => [.dateTime]
    | '%' => [mark '%']
    | _ => [.unknown]

end Part

abbrev Pattern := List Part

namespace Pattern

/-- Puts a character in front of a pattern, joining it to a literal or a gap that starts there. -/
def consText (c : Char) (p : Pattern) : Pattern :=
  if Text.isBlank c then
    match p with
    | .gap :: _ => p
    | _ => .gap :: p
  else
    match p with
    | .literal text :: rest => .literal (c :: text) :: rest
    | _ => .literal [c] :: p

/-- The parts of a pattern, read from its text. -/
def ofChars : List Char → Pattern
  | [] => []
  | '%' :: '-' :: c :: rest => [(Part.ofNumberLetter? c).getD .unknown] ++ ofChars rest
  | '%' :: '0' :: c :: rest => [(Part.ofNumberLetter? c).getD .unknown] ++ ofChars rest
  | '%' :: '_' :: c :: rest => [(Part.ofNumberLetter? c).getD .unknown] ++ ofChars rest
  | '%' :: '#' :: 'z' :: rest => .offset true :: ofChars rest
  | '%' :: ':' :: ':' :: ':' :: 'z' :: rest => .offset false :: ofChars rest
  | '%' :: ':' :: ':' :: 'z' :: rest => .offset false :: ofChars rest
  | '%' :: ':' :: 'z' :: rest => .offset false :: ofChars rest
  | '%' :: '.' :: 'f' :: rest => .fraction none :: ofChars rest
  | '%' :: '.' :: '3' :: 'f' :: rest => .fraction (some 3) :: ofChars rest
  | '%' :: '.' :: '6' :: 'f' :: rest => .fraction (some 6) :: ofChars rest
  | '%' :: '.' :: '9' :: 'f' :: rest => .fraction (some 9) :: ofChars rest
  | '%' :: '3' :: 'f' :: rest => .fractionDigits 3 :: ofChars rest
  | '%' :: '6' :: 'f' :: rest => .fractionDigits 6 :: ofChars rest
  | '%' :: '9' :: 'f' :: rest => .fractionDigits 9 :: ofChars rest
  | '%' :: c :: rest => Part.ofLetter c ++ ofChars rest
  | '%' :: [] => [.unknown]
  | c :: rest => consText c (ofChars rest)

/-- The parts of a pattern, read from its text. -/
def ofString (s : String) : Pattern :=
  ofChars s.toList

end Pattern
end PathRules.Calendar
