import Mathlib
import PathRules.Proofs.Documents
/-!
The values of doubles. A finite double is a rational number, read off its sign, mantissa and
exponent. Main statements: two finite doubles compare as their values do, and a double denotes a
whole number just when its value is one.
-/

namespace PathRules.Decimal

open Float.Model
open Float.Model.UnpackedFloat

/-- The number that the parts of a double make up, its sign aside. -/
def Binary.absolute (b : Binary) : ℚ :=
  b.mantissa * 2 ^ b.exponent

/-- The number that the parts of a double make up. -/
def Binary.value (b : Binary) : ℚ :=
  if b.negative then -b.absolute else b.absolute

/-- The value of a double; infinities and NaN have none. -/
def value? (x : Float) : Option ℚ :=
  (Binary.ofFloat? x).map Binary.value

/-! ### The parts of a double -/

section Bits

variable (bits : BitVec 64)

theorem toNat_unpackExponent :
    (@unpackExponent .binary64 bits).toNat = bits.toNat / 2 ^ 52 % 2048 := by
  simp [unpackExponent, Nat.shiftRight_eq_div_pow]

theorem toNat_unpackMantissa : (@unpackMantissa .binary64 bits).toNat = bits.toNat % 2 ^ 52 := by
  simp [unpackMantissa]

theorem ofBitVec_unpackSign :
    Sign.ofBitVec (@unpackSign .binary64 bits) =
      if bits.toNat ≥ 2 ^ 63 then .negative else .positive := by
  have hbits : (@unpackSign .binary64 bits).toNat = bits.toNat / 2 ^ 63 % 2 := by
    simp [unpackSign, Nat.shiftRight_eq_div_pow]
  have hlt : bits.toNat < 2 ^ 64 := bits.isLt
  have hzero : @unpackSign .binary64 bits = 0#1 ↔ ¬ bits.toNat ≥ 2 ^ 63 := by
    rw [BitVec.toNat_eq, hbits, BitVec.toNat_ofNat]
    omega
  rw [Sign.ofBitVec]
  by_cases h : bits.toNat ≥ 2 ^ 63
  · rw [if_neg (hzero.not.mpr (not_not_intro h)), if_pos h]
  · rw [if_pos (hzero.mpr h), if_neg h]

/-- The mantissa of a normal double has one bit more than is stored. -/
theorem toNat_append_mantissa (fraction : BitVec 52) :
    (1#1 ++ fraction).toNat = fraction.toNat + 2 ^ 52 := by
  have hor := Nat.two_pow_add_eq_or_of_lt fraction.isLt 1
  rw [Nat.mul_one] at hor
  rw [BitVec.toNat_append, BitVec.toNat_ofNat, Nat.add_comm, hor]
  rfl

end Bits

namespace Binary

theorem ofFloat?_cases {x : Float} {b : Binary} (h : ofFloat? x = some b) :
    x.toBits.toNat / 2 ^ 52 % 2048 ≠ 2047 ∧
      (x.toBits.toNat / 2 ^ 52 % 2048 = 0 ∧ b = ⟨signBit x, x.toBits.toNat % 2 ^ 52, -1074⟩ ∨
        x.toBits.toNat / 2 ^ 52 % 2048 ≠ 0 ∧
          b = ⟨signBit x, x.toBits.toNat % 2 ^ 52 + 2 ^ 52,
            (x.toBits.toNat / 2 ^ 52 % 2048 : Nat) - 1075⟩) := by
  simp only [ofFloat?] at h
  split_ifs at h with hinfinite hsmall
  · exact ⟨hinfinite, .inl ⟨hsmall, (Option.some.inj h).symm⟩⟩
  · exact ⟨hinfinite, .inr ⟨hsmall, (Option.some.inj h).symm⟩⟩

/-- Whether the parts are those of a double: the mantissa has 53 bits, unless the exponent is the
least one. -/
structure Canonical (b : Binary) : Prop where
  lt : b.mantissa < 2 ^ 53
  least : -1074 ≤ b.exponent
  full : 2 ^ 52 ≤ b.mantissa ∨ b.exponent = -1074

theorem canonical_of_ofFloat? {x : Float} {b : Binary} (h : ofFloat? x = some b) : b.Canonical := by
  obtain ⟨-, ⟨-, rfl⟩ | ⟨hnormal, rfl⟩⟩ := ofFloat?_cases h
  · exact ⟨by simp only; omega, le_rfl, .inr rfl⟩
  · exact ⟨by simp only; omega, by simp only; omega, .inl (Nat.le_add_left _ _)⟩

/-- The sign, as the library of doubles has it. -/
def sign (b : Binary) : Sign :=
  if b.negative then .negative else .positive

/-- The parts of a double as the library of doubles has them. -/
def unpacked (b : Binary) : UnpackedFloat :=
  if h : b.mantissa = 0 then .zero b.sign
  else .finite b.sign b.mantissa b.exponent (Nat.pos_of_ne_zero h)

theorem unpacked_of_eq_zero {b : Binary} (h : b.mantissa = 0) : b.unpacked = .zero b.sign :=
  dif_pos h

theorem unpacked_of_ne_zero {b : Binary} (h : b.mantissa ≠ 0) :
    b.unpacked = .finite b.sign b.mantissa b.exponent (Nat.pos_of_ne_zero h) :=
  dif_neg h

theorem sign_of_negative {x : Float} {b : Binary} (h : b.negative = signBit x) :
    Sign.ofBitVec (@unpackSign .binary64 x.toModel.toBits.toBitVec) = b.sign := by
  rw [ofBitVec_unpackSign, sign, h, signBit]
  simp only [decide_eq_true_eq]
  rfl

/-- The parts of a double are those that the library of doubles finds in its bits. -/
theorem unpack_of_ofFloat? {x : Float} {b : Binary} (h : ofFloat? x = some b) :
    x.toModel.unpack = b.unpacked := by
  let bits : BitVec 64 := x.toModel.toBits.toBitVec
  have hexponent : (@unpackExponent .binary64 bits).toNat = x.toBits.toNat / 2 ^ 52 % 2048 :=
    toNat_unpackExponent bits
  have hmantissa : (@unpackMantissa .binary64 bits).toNat = x.toBits.toNat % 2 ^ 52 :=
    toNat_unpackMantissa bits
  have hones : @unpackExponent .binary64 bits = -1#11 ↔ x.toBits.toNat / 2 ^ 52 % 2048 = 2047 := by
    rw [BitVec.toNat_eq, hexponent]
    rfl
  have hzero : @unpackExponent .binary64 bits = 0#11 ↔ x.toBits.toNat / 2 ^ 52 % 2048 = 0 := by
    rw [BitVec.toNat_eq, hexponent]
    rfl
  have hnone : @unpackMantissa .binary64 bits = 0#52 ↔ x.toBits.toNat % 2 ^ 52 = 0 := by
    rw [BitVec.toNat_eq, hmantissa]
    rfl
  change UnpackedFloat.unpack .binary64 bits = _
  obtain ⟨hinfinite, ⟨hsmall, hb⟩ | ⟨hnormal, hb⟩⟩ := ofFloat?_cases h
  all_goals
    have hfinite : UnpackedFloat.unpack .binary64 bits = _ := if_neg (hones.not.mpr hinfinite)
    have hsign := sign_of_negative (x := x) (b := b) (by rw [hb])
    rw [hfinite]
  · rw [if_pos (hzero.mpr hsmall)]
    by_cases hm : x.toBits.toNat % 2 ^ 52 = 0
    · have hbm : b.mantissa = 0 := by rw [hb, hm]
      rw [dif_pos (hnone.mpr hm), unpacked_of_eq_zero hbm]
      exact congrArg zero hsign
    · have hbm : b.mantissa ≠ 0 := by rwa [hb]
      rw [dif_neg (hnone.not.mpr hm), unpacked_of_ne_zero hbm]
      simp only [finite.injEq]
      refine ⟨hsign, by rw [hmantissa, hb], ?_⟩
      rw [hexponent, hsmall, hb]
      rfl
  · have hbm : b.mantissa ≠ 0 := by rw [hb]; exact Nat.succ_ne_zero _
    rw [if_neg (hzero.not.mpr hnormal), unpacked_of_ne_zero hbm]
    simp only [finite.injEq]
    refine ⟨hsign, ?_, ?_⟩
    · rw [hb]
      exact (toNat_append_mantissa _).trans (congrArg (· + 2 ^ 52) hmantissa)
    · rw [hexponent, hb]
      rfl

/-! ### Comparison -/

theorem absolute_nonneg (b : Binary) : 0 ≤ b.absolute :=
  mul_nonneg (Nat.cast_nonneg _) (zpow_nonneg zero_le_two _)

theorem absolute_pos {b : Binary} (h : b.mantissa ≠ 0) : 0 < b.absolute :=
  mul_pos (Nat.cast_pos.mpr (Nat.pos_of_ne_zero h)) (zpow_pos zero_lt_two _)

theorem absolute_eq_zero {b : Binary} (h : b.mantissa = 0) : b.absolute = 0 := by
  rw [absolute, h, Nat.cast_zero, zero_mul]

theorem Canonical.absolute_lt {b c : Binary} (hb : b.Canonical) (hc : c.Canonical)
    (h : b.exponent < c.exponent) : b.absolute < c.absolute := by
  have hmantissa : (b.mantissa : ℚ) < 2 ^ (53 : ℤ) := by exact_mod_cast hb.lt
  have hfull : (2 : ℚ) ^ (52 : ℤ) ≤ c.mantissa := by
    have hleast := hb.least
    have hnat : 2 ^ 52 ≤ c.mantissa := hc.full.resolve_right (by omega)
    exact_mod_cast hnat
  have hpos : (0 : ℚ) < 2 ^ b.exponent := zpow_pos zero_lt_two _
  have hpos' : (0 : ℚ) < 2 ^ c.exponent := zpow_pos zero_lt_two _
  calc
    b.absolute < 2 ^ (53 : ℤ) * 2 ^ b.exponent := mul_lt_mul_of_pos_right hmantissa hpos
    _ = 2 ^ (53 + b.exponent) := (zpow_add₀ two_ne_zero _ _).symm
    _ ≤ 2 ^ (52 + c.exponent) := zpow_le_zpow_right₀ one_le_two (by omega)
    _ = 2 ^ (52 : ℤ) * 2 ^ c.exponent := zpow_add₀ two_ne_zero _ _
    _ ≤ c.absolute := mul_le_mul_of_nonneg_right hfull hpos'.le

/-- The parts of two doubles compare, exponents first, as the numbers that they make up. -/
theorem Canonical.compare_absolute {b c : Binary} (hb : b.Canonical) (hc : c.Canonical) :
    (compare b.exponent c.exponent).then (compare b.mantissa c.mantissa) =
      compare b.absolute c.absolute := by
  rcases lt_trichotomy b.exponent c.exponent with h | h | h
  · rw [compare_lt_iff_lt.mpr h, compare_lt_iff_lt.mpr (hb.absolute_lt hc h)]
    rfl
  · have hpos : (0 : ℚ) < 2 ^ c.exponent := zpow_pos zero_lt_two _
    have hcompare : cmp b.absolute c.absolute = cmp b.mantissa c.mantissa := by
      rw [absolute, absolute, h, cmp_mul_pos_right hpos]
      exact Nat.strictMono_cast.cmp_map_eq _ _
    rw [cmp_eq_compare, cmp_eq_compare] at hcompare
    rw [hcompare, compare_eq_iff_eq.mpr h]
    rfl
  · rw [compare_gt_iff_gt.mpr h, compare_gt_iff_gt.mpr (hc.absolute_lt hb h)]
    rfl

theorem value_eq_zero {b : Binary} (h : b.mantissa = 0) : b.value = 0 := by
  rw [value, absolute_eq_zero h, neg_zero, ite_self]

theorem value_cases (b : Binary) :
    b.sign = .negative ∧ b.value = -b.absolute ∨ b.sign = .positive ∧ b.value = b.absolute := by
  rw [sign, value]
  cases b.negative
  · exact .inr ⟨rfl, rfl⟩
  · exact .inl ⟨rfl, rfl⟩

/-- The library of doubles compares the parts of two doubles as the numbers that they make up. -/
theorem Canonical.compare_unpacked {b c : Binary} (hb : b.Canonical) (hc : c.Canonical) :
    b.unpacked.compare c.unpacked = some (compare b.value c.value) := by
  by_cases hbm : b.mantissa = 0 <;> by_cases hcm : c.mantissa = 0
  · rw [unpacked_of_eq_zero hbm, unpacked_of_eq_zero hcm, value_eq_zero hbm, value_eq_zero hcm,
      compare_eq_iff_eq.mpr rfl]
    rfl
  · have hpos := absolute_pos hcm
    rw [unpacked_of_eq_zero hbm, unpacked_of_ne_zero hcm, value_eq_zero hbm]
    obtain ⟨hsign, hvalue⟩ | ⟨hsign, hvalue⟩ := c.value_cases
    · rw [hsign, hvalue, compare_gt_iff_gt.mpr (neg_lt_zero.mpr hpos)]
      rfl
    · rw [hsign, hvalue, compare_lt_iff_lt.mpr hpos]
      rfl
  · have hpos := absolute_pos hbm
    rw [unpacked_of_ne_zero hbm, unpacked_of_eq_zero hcm, value_eq_zero hcm]
    obtain ⟨hsign, hvalue⟩ | ⟨hsign, hvalue⟩ := b.value_cases
    · rw [hsign, hvalue, compare_lt_iff_lt.mpr (neg_lt_zero.mpr hpos)]
      rfl
    · rw [hsign, hvalue, compare_gt_iff_gt.mpr hpos]
      rfl
  · have hbpos := absolute_pos hbm
    have hcpos := absolute_pos hcm
    have hsame := hb.compare_absolute hc
    rw [unpacked_of_ne_zero hbm, unpacked_of_ne_zero hcm]
    obtain ⟨hbs, hbv⟩ | ⟨hbs, hbv⟩ := b.value_cases <;>
      obtain ⟨hcs, hcv⟩ | ⟨hcs, hcv⟩ := c.value_cases <;> rw [hbs, hbv, hcs, hcv]
    · have hnegated :
          compare (-b.absolute) (-c.absolute) = (compare b.absolute c.absolute).swap := by
        have hanti : StrictAnti fun q : ℚ => -q := fun _ _ => neg_lt_neg
        rw [← cmp_eq_compare, ← cmp_eq_compare, cmp_swap]
        exact hanti.cmp_map_eq _ _
      rw [hnegated, ← hsame]
      rfl
    · rw [compare_lt_iff_lt.mpr (by linarith)]
      rfl
    · rw [compare_gt_iff_gt.mpr (by linarith)]
      rfl
    · rw [← hsame]
      rfl

theorem le_unpacked_iff {b c : Binary} (hb : b.Canonical) (hc : c.Canonical) :
    b.unpacked.le c.unpacked = true ↔ b.value ≤ c.value := by
  rw [UnpackedFloat.le, hb.compare_unpacked hc, Option.any_some, Ordering.isLE_iff_ne_gt]
  exact compare_le_iff_le

end Binary

/-- Doubles compare as their values do. -/
theorem le_iff_of_value? {x y : Float} {p q : ℚ} (hx : value? x = some p) (hy : value? y = some q) :
    x ≤ y ↔ p ≤ q := by
  obtain ⟨b, hb, rfl⟩ := Option.map_eq_some_iff.mp hx
  obtain ⟨c, hc, rfl⟩ := Option.map_eq_some_iff.mp hy
  rw [← Binary.le_unpacked_iff (Binary.canonical_of_ofFloat? hb) (Binary.canonical_of_ofFloat? hc),
    ← Binary.unpack_of_ofFloat? hb, ← Binary.unpack_of_ofFloat? hc]
  exact decide_eq_true_iff

/-! ### Whole numbers -/

namespace Binary

theorem ratio_snd_pos (b : Binary) : 0 < b.ratio.2 := by
  rw [ratio]
  split
  · exact Nat.one_pos
  · exact Nat.two_pow_pos _

theorem absolute_eq_ratio (b : Binary) : b.absolute = b.ratio.1 / b.ratio.2 := by
  rw [absolute, ratio]
  split
  next h =>
    obtain ⟨k, hk⟩ := Int.eq_ofNat_of_zero_le h
    simp [hk]
  next h =>
    obtain ⟨k, hk⟩ : ∃ k : Nat, b.exponent = -k := ⟨(-b.exponent).toNat, by omega⟩
    simp [hk, div_eq_mul_inv]

/-- The whole number that a double denotes, if it does, its sign aside. -/
theorem absolute_eq_natCast_iff (b : Binary) (k : Nat) :
    b.absolute = k ↔ b.ratio.1 % b.ratio.2 = 0 ∧ b.ratio.1 / b.ratio.2 = k := by
  have hpos := b.ratio_snd_pos
  have hne : (b.ratio.2 : ℚ) ≠ 0 := Nat.cast_ne_zero.mpr hpos.ne'
  rw [absolute_eq_ratio, div_eq_iff hne]
  constructor
  · intro h
    have hnat : b.ratio.1 = k * b.ratio.2 := by exact_mod_cast h
    rw [hnat]
    exact ⟨Nat.mul_mod_left _ _, Nat.mul_div_cancel _ hpos⟩
  · rintro ⟨hmod, rfl⟩
    exact_mod_cast (Nat.div_mul_cancel (Nat.dvd_of_mod_eq_zero hmod)).symm

end Binary

/-- A double denotes a whole number just when its value is one. -/
theorem wholeValue?_eq_some_iff {x : Float} {n : Int} :
    wholeValue? x = some n ↔ value? x = some (n : ℚ) := by
  rw [wholeValue?, value?]
  cases Binary.ofFloat? x with
  | none => simp
  | some b =>
    have hnonneg := b.absolute_nonneg
    simp only [Option.bind_some, Option.map_some, Option.some.injEq, Option.ite_none_right_eq_some]
    rw [Binary.value]
    cases b.negative with
    | false =>
      simp only [Bool.false_eq_true, if_false]
      constructor
      · rintro ⟨hmod, rfl⟩
        exact_mod_cast (b.absolute_eq_natCast_iff _).mpr ⟨hmod, rfl⟩
      · intro h
        have hn : (0 : ℚ) ≤ n := h ▸ hnonneg
        obtain ⟨k, rfl⟩ := Int.eq_ofNat_of_zero_le (Int.cast_nonneg_iff.mp hn)
        obtain ⟨hmod, hquot⟩ := (b.absolute_eq_natCast_iff k).mp (by exact_mod_cast h)
        exact ⟨hmod, congrArg _ hquot⟩
    | true =>
      simp only [if_true]
      constructor
      · rintro ⟨hmod, rfl⟩
        have habsolute := (b.absolute_eq_natCast_iff _).mpr ⟨hmod, rfl⟩
        exact_mod_cast congrArg Neg.neg habsolute
      · intro h
        have hneg : b.absolute = (-n : ℤ) := by
          rw [Int.cast_neg, ← h, neg_neg]
        have hn : (0 : ℚ) ≤ (-n : ℤ) := hneg ▸ hnonneg
        obtain ⟨k, hk⟩ := Int.eq_ofNat_of_zero_le (Int.cast_nonneg_iff.mp hn)
        rw [hk] at hneg
        obtain ⟨hmod, hquot⟩ := (b.absolute_eq_natCast_iff k).mp (by exact_mod_cast hneg)
        exact ⟨hmod, by rw [hquot]; omega⟩

end PathRules.Decimal
