import PathRules.Calendar.Reading
import PathRules.Decimal.Reading
import PathRules.Text.Lower
import PathRules.Validator
/-!
Rules about types. A rule accepts the values of its type and converts those that denote one: numbers
and dates in text, whole doubles, the usual words for true and false.
-/

namespace PathRules.Rules

def string : Validator where
  name := "string"
  check := Validator.judge fun c => c.value.string?.isSome

/-- The integer that a double denotes: whole, and of smaller magnitude than `2 ^ 63`. -/
def integerOfFloat? (x : Float) : Option Int64 :=
  (Decimal.wholeValue? x).bind fun n =>
    if n.natAbs < 9223372036854775808 then some (Int64.ofInt n) else none

def toInteger? : Value → Option Value
  | .int n => some (.int n)
  | .float x => (integerOfFloat? x).map .int
  | .string s => (Text.int64? (Text.trim s)).map .int
  | _ => none

def integer : Validator where
  name := "integer"
  converting := true
  check := Validator.convert toInteger?

def isFinite (x : Float) : Bool :=
  (Decimal.Binary.ofFloat? x).isSome

/-- The number that a text denotes: an integer if it is written as one that fits, otherwise a
double. -/
def numberOfText? (s : String) : Option Value :=
  match Text.int64? s with
  | some n => some (.int n)
  | none => ((Decimal.float? s).filter isFinite).map .float

def toNumber? : Value → Option Value
  | .int n => some (.int n)
  | .float x => some (.float x)
  | .string s => numberOfText? (Text.trim s)
  | _ => none

def numeric : Validator where
  name := "numeric"
  converting := true
  check := Validator.convert toNumber?

def booleanWords : List (String × Bool) :=
  [("1", true), ("on", true), ("true", true), ("yes", true), ("0", false), ("off", false),
    ("false", false), ("no", false)]

def toBoolean? : Value → Option Value
  | .bool b => some (.bool b)
  | .int n => if n = 1 then some (.bool true) else if n = 0 then some (.bool false) else none
  | .string s => (booleanWords.lookup (Text.lower (Text.trim s))).map .bool
  | _ => none

def boolean : Validator where
  name := "bool"
  converting := true
  check := Validator.convert toBoolean?

/-- The date that a value denotes, texts being read by a pattern. -/
def toDate? (pattern : Option String) : Value → Option Value
  | .date t => some (.date t)
  | .string s => (Calendar.date? s pattern).map .date
  | _ => none

/-- The value must be a date. Texts are read by the pattern, if there is one. -/
def date (pattern : Option String) : Validator where
  name := "date"
  converting := true
  placeholders _ := pattern.toList.map fun p => (":format", p)
  check := Validator.convert (toDate? pattern)

/-- The instant that a value denotes without a pattern. -/
def instantOf? : Value → Option Instant
  | .date t => some t
  | .string s => Calendar.date? s none
  | _ => none

end PathRules.Rules
