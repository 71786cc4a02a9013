/-!
A finite double as an exact number: a sign and `mantissa · 2 ^ exponent`. All decisions about the
value of a double (whether it is whole, which decimals round to it) are made on this form in exact
arithmetic.
-/

namespace PathRules.Decimal

/-- The number `± mantissa · 2 ^ exponent`. -/
structure Binary where
  negative : Bool
  mantissa : Nat
  exponent : Int
  deriving DecidableEq, Repr

/-- Whether the sign bit is set, as it is for `-0`. -/
def signBit (x : Float) : Bool :=
  decide (x.toBits.toNat ≥ Nat.pow 2 63)

/-- The parts of a finite double; infinities and NaN have none. -/
def Binary.ofFloat? (x : Float) : Option Binary :=
  let bits := x.toBits.toNat
  let fraction := bits % Nat.pow 2 52
  let scale := bits / Nat.pow 2 52 % 2048
  if scale = 2047 then none
  else if scale = 0 then some ⟨signBit x, fraction, -1074⟩
  else some ⟨signBit x, fraction + Nat.pow 2 52, Int.ofNat scale - 1075⟩

/-- The number as a fraction with a positive denominator, its sign aside. -/
def Binary.ratio (b : Binary) : Nat × Nat :=
  if b.exponent ≥ 0 then (b.mantissa * Nat.pow 2 b.exponent.toNat, 1)
  else (b.mantissa, Nat.pow 2 (-b.exponent).toNat)

/-- The value of a double that is a whole number. -/
def wholeValue? (x : Float) : Option Int :=
  (Binary.ofFloat? x).bind fun b =>
    let (num, den) := b.ratio
    if num % den = 0 then
      let n : Int := (num / den : Nat)
      some (if b.negative then -n else n)
    else none

/-- The double next to an integer, ties to the even neighbour. -/
def ofInteger (n : Int) : Float :=
  match n with
  | .ofNat k => Float.ofScientific k false 0
  | .negSucc k => -(Float.ofScientific (k + 1) false 0)

end PathRules.Decimal
