import PathRules.Decimal.Binary
/-!
The fewest decimal digits that read back as a given double. The decimals that round to a double form
an interval around it, its ends included when the mantissa is even. On the grids of one, two, three
and more digits the two neighbours of the value are tried in exact arithmetic; the first grid with a
neighbour inside the interval wins, and of two neighbours inside it the nearer one.
-/

namespace PathRules.Decimal

/-- Which of two decimals at the same distance from the value is taken. -/
inductive Tie where
  | even
  | up
  deriving DecidableEq, Repr

/-- The positive decimal `digits · 10 ^ exponent`. -/
structure Scientific where
  digits : Nat
  exponent : Int
  deriving DecidableEq, Repr

/-- The interval of numbers that round to a double, all over one denominator. -/
structure Interval where
  low : Nat
  value : Nat
  high : Nat
  den : Nat
  closed : Bool
  deriving DecidableEq, Repr

/-- The numbers that round to a positive double: half-way to each neighbour, where the lower
neighbour of a power of two is at half the distance of the upper one. -/
def Binary.interval (b : Binary) : Interval :=
  let below := if b.mantissa = Nat.pow 2 52 ∧ b.exponent > -1074 then 1 else 2
  let scale := b.exponent - 2
  let mul := Nat.pow 2 scale.toNat
  { low := (4 * b.mantissa - below) * mul
    value := 4 * b.mantissa * mul
    high := (4 * b.mantissa + 2) * mul
    den := Nat.pow 2 (-scale).toNat
    closed := b.mantissa % 2 == 0 }

/-- Whether `digits · 10 ^ exponent` lies in the interval. -/
def Interval.holds (i : Interval) (d : Scientific) : Bool :=
  let num := d.digits * Nat.pow 10 d.exponent.toNat * i.den
  let den := Nat.pow 10 (-d.exponent).toNat
  if i.closed then i.low * den ≤ num && num ≤ i.high * den
  else i.low * den < num && num < i.high * den

/-- The number of decimal digits before the point of a number at least one, and minus the number
of zeros behind the point of a smaller one. -/
def magnitude (num den : Nat) : Int :=
  if num ≥ den then (Nat.toDigits 10 (num / den)).length
  else 1 - ((Nat.toDigits 10 ((den - 1) / num)).length : Int)

/-- The nearest point of the grid of multiples of `10 ^ exponent` among those in the interval. -/
def Interval.nearest? (i : Interval) (tie : Tie) (exponent : Int) : Option Scientific :=
  let num := i.value * Nat.pow 10 (-exponent).toNat
  let den := i.den * Nat.pow 10 exponent.toNat
  let floor := num / den
  let rest := num % den
  let lower : Scientific := ⟨floor, exponent⟩
  let upper : Scientific := ⟨floor + 1, exponent⟩
  match i.holds lower, i.holds upper with
  | false, false => none
  | true, false => some lower
  | false, true => some upper
  | true, true =>
    if 2 * rest < den then some lower
    else if 2 * rest > den then some upper
    else match tie with
      | .even => some (if floor % 2 = 0 then lower else upper)
      | .up => some upper

/-- Moves trailing zeros of the digits into the exponent. -/
def Scientific.normalize (fuel : Nat) (d : Scientific) : Scientific :=
  match fuel with
  | 0 => d
  | fuel + 1 =>
    if d.digits ≠ 0 ∧ d.digits % 10 = 0 then
      Scientific.normalize fuel ⟨d.digits / 10, d.exponent + 1⟩
    else d

/-- The shortest decimal of a double that is neither zero nor infinite, its sign aside. Seventeen
digits always suffice. -/
def Binary.shortest (tie : Tie) (b : Binary) : Scientific :=
  let i := b.interval
  let top := magnitude i.value i.den
  let found := (List.range 17).findSome? fun (n : Nat) => i.nearest? tie (top - 1 - n)
  (found.getD ⟨b.mantissa, b.exponent⟩).normalize 20

end PathRules.Decimal
