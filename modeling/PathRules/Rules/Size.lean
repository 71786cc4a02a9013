import PathRules.Decimal.Notation
import PathRules.Validator
/-!
Rules about size. A number is as large as itself, a text as its count of characters, a sequence or a
map as its count of entries; sizes are compared as doubles.
-/

namespace PathRules.Rules

def measure? : Value → Option Float
  | .int n => some (Decimal.ofInteger n.toInt)
  | .float x => some x
  | .string s => some (Decimal.ofInteger s.length)
  | .sequence items => some (Decimal.ofInteger items.length)
  | .map entries => some (Decimal.ofInteger entries.length)
  | _ => none

/-- The text of a bound in messages. Whole numbers below `10 ^ 15` are written as integers, so that
zero has no sign. -/
def boundText (x : Float) : String :=
  match Decimal.wholeValue? x with
  | some n => if n.natAbs < Nat.pow 10 15 then Text.integerText n else Decimal.plainText x
  | none => Decimal.plainText x

def sizeMeets (condition : Float → Bool) (v : Value) : Bool :=
  (measure? v).any condition

def atLeast (bound : Float) : Validator where
  name := "min"
  kindDependent := true
  placeholders _ := [(":min", boundText bound)]
  check := Validator.judge fun c => sizeMeets (fun size => bound ≤ size) c.value

def atMost (bound : Float) : Validator where
  name := "max"
  kindDependent := true
  placeholders _ := [(":max", boundText bound)]
  check := Validator.judge fun c => sizeMeets (fun size => size ≤ bound) c.value

/-- The size must lie between the bounds, which are included. -/
def between (least most : Float) : Validator where
  name := "between"
  kindDependent := true
  placeholders _ := [(":min", boundText least), (":max", boundText most)]
  check := Validator.judge fun c => sizeMeets (fun size => least ≤ size && size ≤ most) c.value

end PathRules.Rules
