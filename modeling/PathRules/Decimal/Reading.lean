import PathRules.Decimal.Binary
import PathRules.Text.Numeral
/-!
Reading a double from text: an optional sign, then a word for infinity or NaN in any case, or digits
with at most one point (at least one digit on one of its sides) and an optional exponent. The
result is the double nearest to the written number.
-/

namespace PathRules.Decimal

/-- The double nearest to `significand · 10 ^ exponent`. Exponents beyond the range of doubles are
cut off first, so that no huge power of ten is ever computed. -/
def nearest (significand : Nat) (exponent : Int) : Float :=
  let size : Int := (Text.digits significand).length
  if significand = 0 ∨ exponent + size < -400 then 0
  else if exponent + size > 400 then Float.ofScientific 1 false 400
  else if exponent ≥ 0 then Float.ofScientific significand false exponent.toNat
  else Float.ofScientific significand true (-exponent).toNat

/-- An exponent behind its `e`: an optional sign and at least one digit. -/
def exponent? : List Char → Option Int
  | 'e' :: cs => Text.integer? cs
  | 'E' :: cs => Text.integer? cs
  | _ => none

/-- Digits, an optional point with more digits, and an optional exponent. -/
def unsigned? (cs : List Char) : Option Float :=
  let whole := cs.takeWhile Text.isDigit
  let afterWhole := cs.dropWhile Text.isDigit
  let (fraction, rest) := match afterWhole with
    | '.' :: tail => (tail.takeWhile Text.isDigit, tail.dropWhile Text.isDigit)
    | tail => ([], tail)
  if whole.isEmpty && fraction.isEmpty then none
  else
    let scale : Int := -fraction.length
    let significand := Text.digitsValue 0 (whole ++ fraction)
    if rest.isEmpty then some (nearest significand scale)
    else (exponent? rest).map fun e => nearest significand (scale + e)

/-- The words for the doubles that are no numbers. -/
def word? (cs : List Char) : Option Float :=
  match String.ofList (cs.map Char.toLower) with
  | "inf" => some (1 / 0)
  | "infinity" => some (1 / 0)
  | "nan" => some (0 / 0)
  | _ => none

/-- A number or a word, without sign. -/
def magnitude? (cs : List Char) : Option Float :=
  (word? cs).orElse fun _ => unsigned? cs

def float? (s : String) : Option Float :=
  match s.toList with
  | '-' :: cs => (magnitude? cs).map Float.neg
  | '+' :: cs => magnitude? cs
  | cs => magnitude? cs

end PathRules.Decimal
