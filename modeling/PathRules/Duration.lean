import PathRules.Text.Numeral
/-!
Spans of time in whole nanoseconds, the largest of them a little under `2 ^ 64` seconds. The text of
a span uses the largest unit that it reaches, with as many decimals as it needs.
-/

namespace PathRules

/-- A span of time. -/
structure Duration where
  nanoseconds : Nat
  deriving DecidableEq, Repr, Inhabited

namespace Duration

def max : Duration := ⟨18446744073709551615 * 1000000000 + 999999999⟩

def zero : Duration := ⟨0⟩

def ofMilliseconds (n : Nat) : Duration := ⟨n * 1000000⟩

def milliseconds (d : Duration) : Nat := d.nanoseconds / 1000000

instance : Add Duration := ⟨fun a b => ⟨a.nanoseconds + b.nanoseconds⟩⟩

instance : LE Duration := ⟨fun a b => a.nanoseconds ≤ b.nanoseconds⟩

instance (a b : Duration) : Decidable (a ≤ b) :=
  inferInstanceAs (Decidable (a.nanoseconds ≤ b.nanoseconds))

/-- A count of parts of a unit behind the point, without trailing zeros; `width` digits make up one
unit. -/
def fractionText (width part : Nat) : String :=
  let places := (Text.padded width part).toList.reverse.dropWhile (· == '0')
  if places.isEmpty then "" else String.ofList ('.' :: places.reverse)

/-- The text of a span: `5s`, `1.5s`, `20ms`, `0ns`. -/
def text (d : Duration) : String :=
  let n := d.nanoseconds
  let inUnit (width : Nat) (unit : String) : String :=
    Text.integerText (n / Nat.pow 10 width) ++ fractionText width (n % Nat.pow 10 width) ++ unit
  if n ≥ 1000000000 then inUnit 9 "s"
  else if n ≥ 1000000 then inUnit 6 "ms"
  else if n ≥ 1000 then inUnit 3 "µs"
  else inUnit 0 "ns"

end Duration
end PathRules
