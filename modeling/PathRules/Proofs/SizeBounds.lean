import Mathlib
import PathRules.Proofs.Coercions
import PathRules.Proofs.Rounding
import PathRules.Rules.Size
/-!
Rules about size and whole bounds. The size of an integer is the double next to it. Main statement:
such a rule compares an integer exactly, except that an integer beyond a bound is taken for the
bound when it is rounded to it, which needs more than 53 digits and covers 512 integers on a side at
most.
-/

namespace PathRules

open Decimal

/-- Whether a rule leaves a value, and accepts it just when something holds, whatever else there
is. -/
structure Validator.Decides (rule : Validator) (v : Value) (p : Prop) : Prop where
  accepts : p → rule.Turns v v
  refuses : ¬ p → rule.Refuses v

namespace Rules

/-- Whether the rules with the bounds `x` and `y` accept a value just when it meets the lower bound,
the upper one, and both. -/
structure Bounds (x y : Float) (v : Value) (lower upper : Prop) : Prop where
  least : (atLeast x).Decides v lower
  most : (atMost y).Decides v upper
  within : (between x y).Decides v (lower ∧ upper)

theorem Bounds.congr {x y : Float} {v : Value} {lower upper lower' upper' : Prop}
    (h : Bounds x y v lower upper) (hlower : lower ↔ lower') (hupper : upper ↔ upper') :
    Bounds x y v lower' upper' := by
  rwa [← propext hlower, ← propext hupper]

/-- A rule about size decides what its condition does of the size. -/
theorem decides_of_check {rule : Validator} {condition : Float → Bool} {v : Value} {s : Float}
    {p : Prop} (hcheck : rule.check = Validator.judge fun c => sizeMeets condition c.value)
    (hv : measure? v = some s) (hcondition : condition s = true ↔ p) : rule.Decides v p := by
  have hverdict : ∀ c : Context, c.value = v →
      rule.check c = { accepted := condition s, value := v } := by
    rintro c rfl
    rw [hcheck]
    simp only [Validator.judge, sizeMeets, hv, Option.any_some]
  constructor
  · intro hp c hc
    rw [hverdict c hc, hcondition.mpr hp]
  · intro hp c hc
    rw [hverdict c hc, Bool.eq_false_of_not_eq_true (hcondition.not.mpr hp)]

/-- Sizes meet bounds as their values do. -/
theorem bounds_of_measure? {v : Value} {s x y : Float} {p q r : ℚ} (hv : measure? v = some s)
    (hs : value? s = some p) (hx : value? x = some q) (hy : value? y = some r) :
    Bounds x y v (q ≤ p) (p ≤ r) := by
  have hleast : decide (x ≤ s) = true ↔ q ≤ p := decide_eq_true_iff.trans (le_iff_of_value? hx hs)
  have hmost : decide (s ≤ y) = true ↔ p ≤ r := decide_eq_true_iff.trans (le_iff_of_value? hs hy)
  exact ⟨decides_of_check rfl hv hleast, decides_of_check rfl hv hmost,
    decides_of_check rfl hv ((Bool.and_eq_true_iff).trans (and_congr hleast hmost))⟩

theorem natAbs_toInt_le (n : Int64) : n.toInt.natAbs ≤ 2 ^ 63 := by
  have hlower := n.le_toInt
  have hupper := n.toInt_lt
  omega

/-- Rounded integers meet bounds. -/
theorem bounds_rounded (n : Int64) {x y : Float} {a b : Int} (hx : value? x = some (a : ℚ))
    (hy : value? y = some (b : ℚ)) :
    Bounds x y (.int n) (a ≤ rounded n.toInt) (rounded n.toInt ≤ b) := by
  have hsize : value? (ofInteger n.toInt) = some (rounded n.toInt : ℚ) :=
    value?_ofInteger ((natAbs_toInt_le n).trans_lt (by decide))
  exact (bounds_of_measure? rfl hsize hx hy).congr Int.cast_le Int.cast_le

/-- An integer meets a whole bound if it does so as an integer or is rounded to it. Integers of at
most 53 digits and bounds of fewer are compared exactly, and no integer is rounded by more than
512. -/
theorem integer_bounds (n : Int64) {x y : Float} {a b : Int} (hx : value? x = some (a : ℚ))
    (hy : value? y = some (b : ℚ)) :
    Bounds x y (.int n) (a ≤ n.toInt ∨ rounded n.toInt = a) (n.toInt ≤ b ∨ rounded n.toInt = b) ∧
    (n.toInt.natAbs ≤ 2 ^ 53 ∨ a.natAbs < 2 ^ 53 ∧ b.natAbs < 2 ^ 53 →
      Bounds x y (.int n) (a ≤ n.toInt) (n.toInt ≤ b)) ∧
    (rounded n.toInt - n.toInt).natAbs ≤ 512 := by
  have hbounds := (bounds_rounded n hx hy).congr (le_rounded_iff (representable_of_value? hx))
    (rounded_le_iff (representable_of_value? hy))
  refine ⟨hbounds, fun h => hbounds.congr ?_ ?_, rounded_close (natAbs_toInt_le n)⟩
  · exact or_iff_left_of_imp fun heq => (eq_of_rounded_eq (h.imp_right And.left) heq).ge
  · exact or_iff_left_of_imp fun heq => (eq_of_rounded_eq (h.imp_right And.right) heq).le

theorem integer_bounds_seven :
    value? (ofInteger 5) = some ((5 : Int) : ℚ) ∧ value? (ofInteger 9) = some ((9 : Int) : ℚ) ∧
      (between (ofInteger 5) (ofInteger 9)).Turns (.int 7) (.int 7) := by
  have hfive : value? (ofInteger 5) = some ((5 : Int) : ℚ) := value?_ofInteger (by decide)
  have hnine : value? (ofInteger 9) = some ((9 : Int) : ℚ) := value?_ofInteger (by decide)
  obtain ⟨-, hexact, -⟩ := integer_bounds 7 hfive hnine
  exact ⟨hfive, hnine, (hexact (.inl (by decide))).within.accepts (by decide)⟩

/-- The integer behind `2 ^ 53` meets that bound. -/
theorem exists_bound_exceeded :
    ∃ (n : Int64) (y : Float) (b : Int), value? y = some (b : ℚ) ∧ ¬ n.toInt ≤ b ∧
      (atMost y).Turns (.int n) (.int n) := by
  have hrounded : rounded (2 ^ 53) = 2 ^ 53 := by decide
  have hbound : value? (ofInteger (2 ^ 53)) = some ((2 ^ 53 : Int) : ℚ) := by
    rw [value?_ofInteger (by decide), hrounded]
  have hbounds := bounds_rounded 9007199254740993 hbound hbound
  exact ⟨9007199254740993, ofInteger (2 ^ 53), 2 ^ 53, hbound, by decide,
    hbounds.most.accepts (by decide)⟩

end Rules
end PathRules
