import PathRules.Decimal.Shortest
import PathRules.Text.Numeral
/-!
How a double is written. A notation says which decimal exponents are written positionally, whether
a whole number keeps a point, and how a tie between two shortest decimals is broken. Two notations
are used: `plain` for messages and placeholders, `document` for JSON text.
-/

namespace PathRules.Decimal

/-- The decisions about the written form of a double. -/
structure Notation where
  /-- Of two shortest decimals at the same distance, which is written. -/
  tie : Tie
  /-- The exponents of the first digit that are written positionally; `none` for all of them. -/
  positional : Option (Int × Int)
  /-- Whether a whole number in positional form ends in `.0`. -/
  keepsPoint : Bool

/-- Always positional, without a point on whole numbers; a tie goes up. -/
def plain : Notation := ⟨.up, none, false⟩

/-- Positional with a point while the first digit stands for `10 ^ -5` to `10 ^ 15`; a tie goes to
the even decimal. -/
def document : Notation := ⟨.even, some (-5, 15), true⟩

/-- Digits with the point at its place and zeros where no digit stands. -/
def positionalText (keepsPoint : Bool) (ds : List Char) (exponent : Int) : List Char :=
  if exponent ≥ 0 then
    ds ++ List.replicate exponent.toNat '0' ++ (if keepsPoint then ['.', '0'] else [])
  else
    let places := (-exponent).toNat
    if places < ds.length then
      ds.take (ds.length - places) ++ '.' :: ds.drop (ds.length - places)
    else '0' :: '.' :: List.replicate (places - ds.length) '0' ++ ds

/-- One digit, the others behind a point, and the signed exponent of the first digit. -/
def exponentText (ds : List Char) (first : Int) : List Char :=
  let significand := match ds with
    | [] => []
    | [d] => [d]
    | d :: rest => d :: '.' :: rest
  significand ++ 'e' :: (if first < 0 then '-' else '+') :: Text.digits first.natAbs

def Notation.decimalText (n : Notation) (d : Scientific) : List Char :=
  let ds := Text.digits d.digits
  let first := d.exponent + ds.length - 1
  match n.positional with
  | none => positionalText n.keepsPoint ds d.exponent
  | some (least, most) =>
    if least ≤ first ∧ first ≤ most then positionalText n.keepsPoint ds d.exponent
    else exponentText ds first

/-- The text of a double that is neither infinite nor NaN. -/
def Notation.finiteText (n : Notation) (b : Binary) : List Char :=
  let magnitude :=
    if b.mantissa = 0 then if n.keepsPoint then ['0', '.', '0'] else ['0']
    else n.decimalText (b.shortest n.tie)
  if b.negative then '-' :: magnitude else magnitude

/-- The text of a double in plain notation: `1`, `-0`, `0.1`, `NaN`, `inf`, `-inf`. -/
def plainText (x : Float) : String :=
  match Binary.ofFloat? x with
  | some b => String.ofList (plain.finiteText b)
  | none => if x.isNaN then "NaN" else if signBit x then "-inf" else "inf"

/-- The text of a double in a JSON document, which has none for infinities and NaN. -/
def documentText? (x : Float) : Option String :=
  (Binary.ofFloat? x).map fun b => String.ofList (document.finiteText b)

end PathRules.Decimal
