import Mathlib
import PathRules.Proofs.Coercions
import PathRules.Proofs.DeclaredText
import PathRules.Proofs.Doubles
/-!
The rule about integers and the ways to spell one. Main statement: the rule turns an integer, its
decimal text and every double with its value into the integer, save for the double of the least
integer, which it refuses, as it does every double that has no such value.
-/

namespace PathRules

namespace Text

theorem isBlank_of_isDigit {c : Char} (h : isDigit c = true) : isBlank c = false := by
  have hdigit : c.isDigit = true := by simpa [isDigit, digit?] using h
  have hrange : 48 ≤ c.toNat ∧ c.toNat ≤ 57 := by
    simpa [Char.isDigit, UInt32.le_iff_toNat_le] using hdigit
  simp only [isBlank, blankRanges, List.any_eq_false, Bool.and_eq_true, decide_eq_true_eq]
  rintro ⟨first, last⟩ hmem
  simp only [List.mem_cons, Prod.mk.injEq, List.not_mem_nil, or_false] at hmem
  omega

theorem isBlank_of_mem_integerText {n : Int} {c : Char} (h : c ∈ (integerText n).toList) :
    isBlank c = false := by
  cases n with
  | ofNat k =>
    rw [integerText, String.toList_ofList] at h
    exact isBlank_of_isDigit (isDigit_of_mem_digits h)
  | negSucc k =>
    rw [integerText, String.toList_ofList, List.mem_cons] at h
    obtain rfl | hmem := h
    · decide
    · exact isBlank_of_isDigit (isDigit_of_mem_digits hmem)

theorem trim_integerText (n : Int) : trim (integerText n) = integerText n := by
  have htrimmed : Trimmed (integerText n).toList :=
    ⟨fun c hc => isBlank_of_mem_integerText (List.mem_of_mem_head? hc),
      fun c hc => isBlank_of_mem_integerText (List.mem_of_getLast? hc)⟩
  rw [trim, trimList_eq_self_iff.mpr htrimmed, String.ofList_toList]

/-- A signed number of 64 bits is what its text denotes. -/
theorem int64?_integerText (n : Int64) : int64? (integerText n.toInt) = some n := by
  rw [int64?, integer?_integerText, Option.bind_some, if_pos (fitsInt64_toInt n),
    Int64.ofInt_toInt]

end Text

namespace Rules

open Decimal

/-- The integer that a double is read as is its value, and is not the least one. -/
theorem integerOfFloat?_eq_some_iff {x : Float} {n : Int64} :
    integerOfFloat? x = some n ↔ value? x = some (n.toInt : ℚ) ∧ n ≠ Int64.minValue := by
  rw [integerOfFloat?, Option.bind_eq_some_iff]
  constructor
  · rintro ⟨m, hm, h⟩
    obtain ⟨hlt, hn⟩ := Option.ite_none_right_eq_some.mp h
    have htoInt : n.toInt = m := by
      rw [← Option.some.inj hn, Int64.toInt_ofInt_of_le (by omega) (by omega)]
    refine ⟨wholeValue?_eq_some_iff.mp (htoInt ▸ hm), ?_⟩
    rintro rfl
    rw [Int64.toInt_minValue] at htoInt
    omega
  · rintro ⟨hx, hleast⟩
    have hne : n.toInt ≠ -2 ^ 63 := fun h => hleast (Int64.toInt_inj.mp h)
    have hlower := n.le_toInt
    have hupper := n.toInt_lt
    exact ⟨n.toInt, wholeValue?_eq_some_iff.mpr hx, by rw [if_pos (by omega), Int64.ofInt_toInt]⟩

theorem integerOfFloat?_eq_none_iff {x : Float} :
    integerOfFloat? x = none ↔
      ∀ n : Int64, value? x = some (n.toInt : ℚ) → n = Int64.minValue := by
  simp only [Option.eq_none_iff_forall_ne_some, ne_eq, integerOfFloat?_eq_some_iff, not_and,
    not_not]

theorem Coercion.turns_iff {k : Coercion} {v w : Value} :
    k.rule.Turns v w ↔ k.convert? v = some w :=
  ⟨fun h => convert?_of_check (h { rootContext with value := v } rfl), turns_of_convert?⟩

theorem Coercion.refuses_iff {k : Coercion} {v : Value} :
    k.rule.Refuses v ↔ k.convert? v = none :=
  ⟨fun h => convert?_eq_none_of_check (h { rootContext with value := v } rfl), refuses_of_convert?⟩

/-- An integer and its text are turned into the integer, and so is a double just when it has the
value of the integer, which is not the least one. A double is refused just when it has the value of
no other integer. -/
theorem integer_spellings (n : Int64) (x : Float) :
    integer.Turns (.int n) (.int n) ∧
      integer.Turns (.string (Text.integerText n.toInt)) (.int n) ∧
      (integer.Turns (.float x) (.int n) ↔
        value? x = some (n.toInt : ℚ) ∧ n ≠ Int64.minValue) ∧
      (integer.Refuses (.float x) ↔
        ∀ m : Int64, value? x = some (m.toInt : ℚ) → m = Int64.minValue) := by
  have hturns : integer.Turns (.float x) (.int n) ↔ toInteger? (.float x) = some (.int n) :=
    Coercion.turns_iff (k := .integer)
  have hrefuses : integer.Refuses (.float x) ↔ toInteger? (.float x) = none :=
    Coercion.refuses_iff (k := .integer)
  refine ⟨(Coercion.Canonical.integer n).turns, ?_, ?_, ?_⟩
  · refine Coercion.turns_of_convert? (k := .integer) ?_
    rw [Coercion.convert?, toInteger?, Text.trim_integerText, Text.int64?_integerText]
    rfl
  · rw [hturns, toInteger?, ← integerOfFloat?_eq_some_iff, Option.map_eq_some_iff]
    constructor
    · rintro ⟨m, hm, heq⟩
      rwa [← Value.int.inj heq]
    · intro hn
      exact ⟨n, hn, rfl⟩
  · rw [hrefuses, toInteger?, ← integerOfFloat?_eq_none_iff, Option.map_eq_none_iff]

theorem integer_spellings_negativeZero :
    value? (Float.ofBits 0x8000000000000000) = some ((0 : Int64).toInt : ℚ) ∧
      integer.Turns (.float (Float.ofBits 0x8000000000000000)) (.int 0) := by
  have hzero : value? (Float.ofBits 0x8000000000000000) = some ((0 : Int64).toInt : ℚ) :=
    wholeValue?_eq_some_iff.mp (by decide +kernel)
  obtain ⟨-, -, hturns, -⟩ := integer_spellings 0 (Float.ofBits 0x8000000000000000)
  exact ⟨hzero, hturns.mpr ⟨hzero, by decide⟩⟩

/-- The double of the least integer is refused. -/
theorem exists_integer_refused :
    ∃ (n : Int64) (x : Float), value? x = some (n.toInt : ℚ) ∧ integer.Refuses (.float x) := by
  have hleast : value? (Float.ofBits 0xC3E0000000000000) = some (Int64.minValue.toInt : ℚ) :=
    wholeValue?_eq_some_iff.mp (by decide)
  refine ⟨Int64.minValue, _, hleast, Coercion.refuses_of_convert? (k := .integer) ?_⟩
  have hnone : integerOfFloat? (Float.ofBits 0xC3E0000000000000) = none := by decide
  rw [Coercion.convert?, toInteger?, hnone]
  rfl

end Rules
end PathRules
