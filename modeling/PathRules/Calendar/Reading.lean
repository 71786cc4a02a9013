import PathRules.Calendar.Fields
/-!
Reading a date from text: by a pattern, or in one of the two forms that need none, a complete date
and time with offset (`2020-01-02T03:04:05Z`) and a plain date (`2020-01-02`). Each reader takes
what it needs from the front of the text and returns the rest.
-/

namespace PathRules.Calendar

/-- What is read so far and the text that is left. -/
abbrev Progress := Option (Fields × List Char)

/-- Reads at least `least` and at most `most` digits; the number fits a signed word. -/
def takeNumber (least : Nat) (most : Option Nat) (cs : List Char) : Option (Int × List Char) :=
  let run := cs.takeWhile Text.isDigit
  let ds := match most with
    | some n => run.take n
    | none => run
  let value := Text.digitsValue 0 ds
  if ds.length < least ∨ value > 9223372036854775807 then none
  else some (value, cs.drop ds.length)

/-- Reads a number with an optional sign. Behind a sign the count of digits is free. -/
def takeSigned (width : Option Nat) : List Char → Option (Int × List Char)
  | '-' :: cs => (takeNumber 1 none cs).map fun (n, rest) => (-n, rest)
  | '+' :: cs => takeNumber 1 none cs
  | cs => takeNumber 1 width cs

/-- The text behind a given beginning. -/
def dropLiteral (text cs : List Char) : Option (List Char) :=
  if text.isPrefixOf cs then some (cs.drop text.length) else none

/-- The text behind a given beginning, in any case; the beginning is in lower case. -/
def dropWord (word cs : List Char) : Option (List Char) :=
  dropLiteral word ((cs.take word.length).map Char.toLower ++ cs.drop word.length)

/-- The first three letters of each month and the letters that complete its name. -/
def monthNames : List (String × String) :=
  [("jan", "uary"), ("feb", "ruary"), ("mar", "ch"), ("apr", "il"), ("may", ""), ("jun", "e"),
    ("jul", "y"), ("aug", "ust"), ("sep", "tember"), ("oct", "ober"), ("nov", "ember"),
    ("dec", "ember")]

/-- The first three letters of each weekday and the letters that complete its name. -/
def weekdayNames : List (String × String) :=
  [("mon", "day"), ("tue", "sday"), ("wed", "nesday"), ("thu", "rsday"), ("fri", "day"),
    ("sat", "urday"), ("sun", "day")]

/-- Reads one of the names: its place in the list and the rest of the text. With `long`, the letters
that complete the name are taken too where they stand. -/
def takeName (names : List (String × String)) (long : Bool) (cs : List Char) :
    Option (Nat × List Char) :=
  names.zipIdx.findSome? fun ((short, completion), i) =>
    (dropWord short.toList cs).map fun rest =>
      (i, if long then (dropWord completion.toList rest).getD rest else rest)

/-- Reads a fraction of a second behind its point; digits after the ninth are skipped. -/
def takeFraction (cs : List Char) : Option (Int × List Char) :=
  let run := cs.takeWhile Text.isDigit
  let ds := run.take 9
  if ds.isEmpty then none
  else some (Text.digitsValue 0 ds * Nat.pow 10 (9 - ds.length), cs.drop run.length)

/-- Reads a fraction of a second in a fixed number of digits. -/
def takeFractionDigits (digits : Nat) (cs : List Char) : Option (Int × List Char) :=
  (takeNumber digits (some digits) cs).map fun (n, rest) => (n * Nat.pow 10 (9 - digits), rest)

/-- What stands between the hours and the minutes of an offset. -/
inductive OffsetSeparator where
  /-- Exactly one colon. -/
  | colon
  /-- Any colons and blanks, or none. -/
  | loose
  deriving DecidableEq, Repr

def OffsetSeparator.skip : OffsetSeparator → List Char → Option (List Char)
  | colon, cs => dropLiteral [':'] cs
  | loose, cs => some (cs.dropWhile fun c => c == ':' || Text.isBlank c)

/-- Reads an offset from universal time in seconds: a sign, two digits of hours and two digits of
minutes. The minus sign U+2212 is a sign too. With `zulu`, `Z` is the offset zero; with
`hoursOnly`, the minutes may be missing at the end of the text. -/
def takeOffset (separator : OffsetSeparator) (zulu hoursOnly : Bool) (cs : List Char) :
    Option (Int × List Char) := do
  if zulu then
    if let some rest := dropWord ['z'] cs then
      return (0, rest)
  let (sign, cs) ← match cs with
    | '+' :: rest => some (1, rest)
    | '-' :: rest => some (-1, rest)
    | '\u2212' :: rest => some (-1, rest)
    | _ => none
  let (hours, cs) ← takeNumber 2 (some 2) cs
  let cs ← separator.skip cs
  if hoursOnly && cs.isEmpty then
    return (sign * (hours * 3600), [])
  let (minutes, cs) ← takeNumber 2 (some 2) cs
  if minutes > 59 then none
  else some (sign * (hours * 3600 + minutes * 60), cs)

def setField (fields : Fields) (field : Field) (read : Option (Int × List Char)) : Progress := do
  let (value, rest) ← read
  let fields ← (fields.set field value).toOption
  return (fields, rest)

def setNumber (fields : Fields) (what : Number) (read : Option (Int × List Char)) : Progress := do
  let (value, rest) ← read
  let fields ← (fields.setNumber what value).toOption
  return (fields, rest)

/-- Reads a fraction of a second if a point stands here. -/
def optionalFraction (fields : Fields) (digits : Option Nat) (cs : List Char) : Progress :=
  match cs with
  | '.' :: rest =>
    setField fields .nanosecond <|
      match digits with
      | none => takeFraction rest
      | some n => takeFractionDigits n rest
  | _ => some (fields, cs)

/-- Reads one part of a pattern that is neither a complete date and time. -/
def readSimple (part : Part) (fields : Fields) (cs : List Char) : Progress :=
  match part with
  | .literal text => (dropLiteral text cs).map fun rest => (fields, rest)
  | .gap => some (fields, Text.trimStart cs)
  | .number what width signed =>
    let cs := Text.trimStart cs
    setNumber fields what (if signed then takeSigned width cs else takeNumber 1 width cs)
  | .month long =>
    setField fields .month
      ((takeName monthNames long cs).map fun (i, rest) => (Int.ofNat i + 1, rest))
  | .weekday long =>
    setField fields .weekday
      ((takeName weekdayNames long cs).map fun (i, rest) => (Int.ofNat i, rest))
  | .halfDay =>
    setField fields .halfDay <|
      match dropWord ['a', 'm'] cs, dropWord ['p', 'm'] cs with
      | some rest, _ => some (0, rest)
      | none, some rest => some (1, rest)
      | none, none => none
  | .fraction digits => optionalFraction fields digits cs
  | .fractionDigits digits => setField fields .nanosecond (takeFractionDigits digits cs)
  | .zoneName => some (fields, cs.dropWhile fun c => !Text.isBlank c)
  | .offset permissive =>
    setField fields .offset (takeOffset .loose permissive permissive (Text.trimStart cs))
  | .dateTime => none
  | .unknown => none

def readSimples (fields : Fields) (cs : List Char) : List Part → Progress
  | [] => some (fields, cs)
  | part :: rest => (readSimple part fields cs).bind fun (fields, cs) => readSimples fields cs rest

/-- The letter or the space between a date and a time. -/
def dropTimeMark : List Char → Option (List Char)
  | 'T' :: rest => some rest
  | 't' :: rest => some rest
  | ' ' :: rest => some rest
  | _ => none

/-- The date and the time of a complete date and time, with blanks before their marks. -/
def spacedDate : List Part :=
  [.fourDigitYear .year, .gap, .mark '-', .two .month, .gap, .mark '-', .two .day]

/-- The time of a complete date and time, with blanks before its marks. -/
def spacedClock : List Part :=
  [.hour, .gap, .mark ':', .two .minute, .gap, .mark ':', .two .second, .fraction none, .gap]

/-- Reads a date, a time and an offset, which may also be `UTC`, with blanks allowed between. -/
def readDateTime (fields : Fields) (cs : List Char) : Progress := do
  let (fields, cs) ← readSimples fields cs spacedDate
  let cs ← dropTimeMark cs
  let (fields, cs) ← readSimples fields cs spacedClock
  setField fields .offset <|
    match dropWord ['u', 't', 'c'] cs with
    | some rest => some (0, rest)
    | none => takeOffset .loose true false cs

def readPart (part : Part) (fields : Fields) (cs : List Char) : Progress :=
  match part with
  | .dateTime => readDateTime fields cs
  | part => readSimple part fields cs

/-- The fields of a text that a pattern matches as a whole. -/
def Pattern.fields? (pattern : Pattern) (text : List Char) : Option Fields := do
  let (fields, rest) ← pattern.foldlM (fun (fields, cs) part => readPart part fields cs) ([], text)
  if rest.isEmpty then some fields else none

/-- The instant of a text by a pattern: a date and a time if it gives both, else a date at midnight.
An offset is read but not applied. -/
def Pattern.instant? (pattern : Pattern) (text : List Char) : Option Instant := do
  let fields ← pattern.fields? text
  match fields.toInstant 0 with
  | .ok t => some t
  | .error _ => (fields.toDay.toOption).map Instant.midnight

/-- The parts of the date of a complete date and time. -/
def strictField (fields : Fields) (what : Number) (digits : Nat) (cs : List Char) : Progress :=
  setNumber fields what (takeNumber digits (some digits) cs)

/-- The largest offset of a complete date and time, in seconds. -/
def maxOffset : Int := (23 * 60 + 59) * 60

/-- Reads a complete date and time: four, two and two digits, a mark, a time, an optional fraction
and an offset. -/
def completeFields? (text : List Char) : Option Fields := do
  let (fields, cs) ← strictField [] (.plain .year) 4 text
  let cs ← dropLiteral ['-'] cs
  let (fields, cs) ← strictField fields (.plain .month) 2 cs
  let cs ← dropLiteral ['-'] cs
  let (fields, cs) ← strictField fields (.plain .day) 2 cs
  let cs ← dropTimeMark cs
  let (fields, cs) ← strictField fields .hour 2 cs
  let cs ← dropLiteral [':'] cs
  let (fields, cs) ← strictField fields (.plain .minute) 2 cs
  let cs ← dropLiteral [':'] cs
  let (fields, cs) ← strictField fields (.plain .second) 2 cs
  let (fields, cs) ← optionalFraction fields none cs
  let (offset, cs) ← takeOffset .colon true false cs
  if offset < -maxOffset ∨ maxOffset < offset then none
  else if cs.isEmpty then (fields.set .offset offset).toOption
  else none

/-- The instant of a complete date and time such as `2020-01-02T03:04:05+01:00`. -/
def completeInstant? (text : List Char) : Option Instant := do
  let fields ← completeFields? text
  let offset := (Keyed.get? fields .offset).getD 0
  let t ← (fields.toInstant offset).toOption
  let t := t.shift (-offset)
  if t.day.inRange then some t else none

/-- The date that a text denotes, blanks around it aside. Without a pattern, a complete date and
time or a plain date is read; a date without time is taken at midnight. -/
def date? (text : String) (pattern : Option String) : Option Instant :=
  let cs := Text.trimList text.toList
  match pattern with
  | some p => (Pattern.ofString p).instant? cs
  | none =>
    (completeInstant? cs).orElse fun _ =>
      ((Pattern.ofString "%Y-%m-%d").fields? cs).bind fun fields =>
        fields.toDay.toOption.map Instant.midnight

end PathRules.Calendar
