import Mathlib
import PathRules.Proofs.Doubles
/-!
The double next to an integer. An integer is rounded to 53 significant bits, ties to the even
neighbour, so that the integers that are doubles themselves are cuts: no integer is rounded across
one of them.
-/

namespace PathRules.Decimal

open Float.Model
open Float.Model.UnpackedFloat

/-- `n / 2 ^ k`, rounded to the nearest whole number, ties to the even one. -/
def roundedQuotient (n k : Nat) : Nat :=
  if 2 * (n % 2 ^ k) < 2 ^ k then n / 2 ^ k
  else if 2 * (n % 2 ^ k) = 2 ^ k then n / 2 ^ k + n / 2 ^ k % 2
  else n / 2 ^ k + 1

/-- The count of the low bits of a natural number that a double has no room for. -/
def surplus (n : Nat) : Nat :=
  n.log2 - 52

/-- The whole number that the double next to a natural number denotes. -/
def roundedNat (n : Nat) : Nat :=
  roundedQuotient n (surplus n) * 2 ^ surplus n

/-- The whole number that the double next to an integer denotes. -/
def rounded (n : Int) : Int :=
  n.sign * roundedNat n.natAbs

/-! ### Rounding to the nearest -/

section Quotient

variable {n k c : Nat}

theorem div_le_roundedQuotient : n / 2 ^ k ≤ roundedQuotient n k := by
  rw [roundedQuotient]
  split_ifs <;> omega

theorem roundedQuotient_le_div_add_one : roundedQuotient n k ≤ n / 2 ^ k + 1 := by
  rw [roundedQuotient]
  split_ifs <;> omega

theorem roundedQuotient_of_dvd (h : 2 ^ k ∣ n) : roundedQuotient n k = n / 2 ^ k := by
  have hpos : 0 < 2 ^ k := Nat.two_pow_pos k
  rw [roundedQuotient, Nat.mod_eq_zero_of_dvd h, if_pos (by omega)]

theorem le_roundedQuotient (h : c * 2 ^ k ≤ n) : c ≤ roundedQuotient n k :=
  ((Nat.le_div_iff_mul_le (Nat.two_pow_pos k)).mpr h).trans div_le_roundedQuotient

theorem roundedQuotient_le (h : n ≤ c * 2 ^ k) : roundedQuotient n k ≤ c := by
  rcases h.eq_or_lt with rfl | hlt
  · rw [roundedQuotient_of_dvd (Nat.dvd_mul_left _ _), Nat.mul_div_cancel _ (Nat.two_pow_pos k)]
  · have hdiv : n / 2 ^ k < c := (Nat.div_lt_iff_lt_mul (Nat.two_pow_pos k)).mpr hlt
    exact roundedQuotient_le_div_add_one.trans hdiv

theorem roundedQuotient_zero (n : Nat) : roundedQuotient n 0 = n := by
  rw [roundedQuotient_of_dvd (one_dvd n), pow_zero, Nat.div_one]

theorem roundedQuotient_mul (n k j : Nat) :
    roundedQuotient (n * 2 ^ j) (k + j) = roundedQuotient n k := by
  have hpos : 0 < 2 ^ j := Nat.two_pow_pos j
  have hquotient : n * 2 ^ j / 2 ^ (k + j) = n / 2 ^ k := by
    rw [pow_add, Nat.mul_div_mul_right _ _ hpos]
  have hremainder : 2 * (n * 2 ^ j % 2 ^ (k + j)) = 2 * (n % 2 ^ k) * 2 ^ j := by
    rw [pow_add, Nat.mul_mod_mul_right, mul_assoc]
  have hlt : 2 * (n * 2 ^ j % 2 ^ (k + j)) < 2 ^ (k + j) ↔ 2 * (n % 2 ^ k) < 2 ^ k := by
    rw [hremainder, pow_add]
    exact Nat.mul_lt_mul_right hpos
  have heq : 2 * (n * 2 ^ j % 2 ^ (k + j)) = 2 ^ (k + j) ↔ 2 * (n % 2 ^ k) = 2 ^ k := by
    rw [hremainder, pow_add]
    exact Nat.mul_left_inj hpos.ne'
  simp only [roundedQuotient, hquotient, hlt, heq]

/-- Rounding moves a number by half a step at most. -/
theorem roundedQuotient_close : 2 * n ≤ 2 * (roundedQuotient n k * 2 ^ k) + 2 ^ k ∧
    2 * (roundedQuotient n k * 2 ^ k) ≤ 2 * n + 2 ^ k := by
  have hsplit : n / 2 ^ k * 2 ^ k + n % 2 ^ k = n := Nat.div_add_mod' n _
  have hlt : n % 2 ^ k < 2 ^ k := Nat.mod_lt _ (Nat.two_pow_pos k)
  rw [roundedQuotient]
  split_ifs with hless heven
  · omega
  · rcases Nat.mod_two_eq_zero_or_one (n / 2 ^ k) with h | h
    · rw [h, add_zero]
      omega
    · rw [h, Nat.add_mul, Nat.one_mul]
      omega
  · rw [Nat.add_mul, Nat.one_mul]
    omega

end Quotient

/-! ### The integers that are doubles -/

/-- Whether a natural number has at most 53 significant bits. -/
def Representable (b : Nat) : Prop :=
  ∃ m e : Nat, m < 2 ^ 53 ∧ b = m * 2 ^ e

/-- The whole numbers that doubles denote have at most 53 significant bits. -/
theorem representable_of_value? {x : Float} {b : Int} (h : value? x = some (b : ℚ)) :
    Representable b.natAbs := by
  obtain ⟨c, hc, hvalue⟩ := Option.map_eq_some_iff.mp h
  have hlt : c.mantissa < 2 ^ 53 := (Binary.canonical_of_ofFloat? hc).lt
  have habsolute : c.absolute = (b.natAbs : ℚ) := by
    have habs : |c.value| = c.absolute := by
      obtain ⟨-, hcases⟩ | ⟨-, hcases⟩ := c.value_cases <;> rw [hcases]
      · rw [abs_neg, abs_of_nonneg c.absolute_nonneg]
      · exact abs_of_nonneg c.absolute_nonneg
    rw [← habs, hvalue, Nat.cast_natAbs, Int.cast_abs]
  obtain ⟨-, hquotient⟩ := (c.absolute_eq_natCast_iff _).mp habsolute
  rw [← hquotient, Binary.ratio]
  split
  · exact ⟨c.mantissa, c.exponent.toNat, hlt, Nat.div_one _⟩
  · exact ⟨_, 0, (Nat.div_le_self _ _).trans_lt hlt, (mul_one _).symm⟩

theorem surplus_add {n : Nat} (h : 52 ≤ n.log2) : 52 + surplus n = n.log2 :=
  Nat.add_sub_cancel' h

theorem le_log2 {n k : Nat} (h : 2 ^ k ≤ n) : k ≤ n.log2 :=
  (Nat.le_log2 (by have := Nat.two_pow_pos k; omega)).mpr h

theorem surplus_cases {n : Nat} (hn : n ≠ 0) :
    surplus n = 0 ∨ 2 ^ (52 + surplus n) ≤ n := by
  rw [surplus]
  by_cases h : n.log2 ≤ 52
  · exact .inl (by omega)
  · refine .inr ?_
    rw [show 52 + (n.log2 - 52) = n.log2 by omega]
    exact Nat.log2_self_le hn

theorem lt_two_pow_surplus (n : Nat) : n < 2 ^ (53 + surplus n) := by
  have hlog : n.log2 + 1 ≤ 53 + surplus n := by rw [surplus]; omega
  exact Nat.lt_log2_self.trans_le (Nat.pow_le_pow_right Nat.two_pos hlog)

/-- A double that is large enough is a multiple of the rounding step. -/
theorem Representable.exists_mul {b k : Nat} (hb : Representable b)
    (h : k = 0 ∨ 2 ^ (52 + k) ≤ b) : ∃ c, b = c * 2 ^ k := by
  obtain ⟨m, e, hm, rfl⟩ := hb
  obtain rfl | hle := h
  · exact ⟨m * 2 ^ e, by rw [pow_zero, mul_one]⟩
  · have hlt : 2 ^ (52 + k) < 2 ^ (53 + e) := by
      rw [pow_add 2 53 e]
      exact hle.trans_lt (Nat.mul_lt_mul_of_pos_right hm (Nat.two_pow_pos e))
    have hke : k ≤ e := by
      have := (Nat.pow_lt_pow_iff_right one_lt_two).mp hlt
      omega
    exact ⟨m * 2 ^ (e - k), by rw [mul_assoc, ← pow_add, Nat.sub_add_cancel hke]⟩

theorem roundedNat_zero : roundedNat 0 = 0 := by
  rw [roundedNat, roundedQuotient_of_dvd (dvd_zero _), Nat.zero_div, zero_mul]

/-- A number below a double is not rounded above it. -/
theorem Representable.roundedNat_le {n b : Nat} (hb : Representable b) (h : n ≤ b) :
    roundedNat n ≤ b := by
  by_cases hn : n = 0
  · rw [hn, roundedNat_zero]
    exact Nat.zero_le b
  · obtain ⟨c, rfl⟩ := hb.exists_mul ((surplus_cases hn).imp_right (le_trans · h))
    exact Nat.mul_le_mul_right _ (roundedQuotient_le h)

/-- A number above a double is not rounded below it. -/
theorem Representable.le_roundedNat {n b : Nat} (hb : Representable b) (h : b ≤ n) :
    b ≤ roundedNat n := by
  by_cases hn : n = 0
  · omega
  · by_cases hlarge : surplus n = 0 ∨ 2 ^ (52 + surplus n) ≤ b
    · obtain ⟨c, rfl⟩ := hb.exists_mul hlarge
      exact Nat.mul_le_mul_right _ (le_roundedQuotient h)
    · -- The double has fewer digits than `n`, which keeps its leading one.
      push Not at hlarge
      have hlead : 2 ^ 52 ≤ roundedQuotient n (surplus n) :=
        le_roundedQuotient (by rw [← pow_add]; exact (surplus_cases hn).resolve_left hlarge.1)
      calc
        b ≤ 2 ^ (52 + surplus n) := hlarge.2.le
        _ = 2 ^ 52 * 2 ^ surplus n := pow_add 2 52 _
        _ ≤ roundedNat n := Nat.mul_le_mul_right _ hlead

theorem Representable.roundedNat_eq {n : Nat} (hn : Representable n) : roundedNat n = n :=
  le_antisymm (hn.roundedNat_le le_rfl) (hn.le_roundedNat le_rfl)

theorem representable_two_pow (e : Nat) : Representable (2 ^ e) :=
  ⟨1, e, by omega, (one_mul _).symm⟩

theorem representable_of_le {n : Nat} (h : n ≤ 2 ^ 53) : Representable n := by
  obtain h | rfl := h.lt_or_eq
  · exact ⟨n, 0, h, (mul_one n).symm⟩
  · exact representable_two_pow 53

/-- Rounding moves a number below `2 ^ 63` by 512 at most. -/
theorem roundedNat_close {n : Nat} (h : n < 2 ^ 63) :
    n ≤ roundedNat n + 512 ∧ roundedNat n ≤ n + 512 := by
  have hsurplus : surplus n ≤ 10 := by
    have hlog : n.log2 ≤ 62 := by
      by_cases hn : n = 0
      · rw [hn, Nat.log2_zero]
        exact Nat.zero_le _
      · exact Nat.le_of_lt_succ ((Nat.log2_lt hn).mpr h)
    rw [surplus]
    omega
  have hstep : 2 ^ surplus n ≤ 2 ^ 10 := Nat.pow_le_pow_right Nat.two_pos hsurplus
  obtain ⟨hbelow, habove⟩ := roundedQuotient_close (n := n) (k := surplus n)
  rw [roundedNat]
  constructor <;> omega

theorem rounded_neg (n : Int) : rounded (-n) = -rounded n := by
  rw [rounded, rounded, Int.sign_neg, Int.natAbs_neg, neg_mul]

theorem rounded_natCast (n : Nat) : rounded n = roundedNat n := by
  rw [rounded, Int.natAbs_natCast]
  obtain rfl | hpos := n.eq_zero_or_pos
  · rw [roundedNat_zero]
    rfl
  · rw [Int.sign_natCast_of_ne_zero hpos.ne', one_mul]

/-- An integer below a double is not rounded above it. -/
theorem rounded_le {n b : Int} (hb : Representable b.natAbs) (h : n ≤ b) : rounded n ≤ b := by
  obtain ⟨k, rfl | rfl⟩ := n.eq_nat_or_neg
  · have hle : roundedNat k ≤ b.natAbs := hb.roundedNat_le (by omega)
    rw [rounded_natCast]
    omega
  · rw [rounded_neg, rounded_natCast]
    by_cases hnonneg : 0 ≤ b
    · omega
    · have hle : b.natAbs ≤ roundedNat k := hb.le_roundedNat (by omega)
      omega

/-- An integer above a double is not rounded below it. -/
theorem le_rounded {n b : Int} (hb : Representable b.natAbs) (h : b ≤ n) : b ≤ rounded n := by
  have hneg : rounded (-n) ≤ -b := rounded_le (by rwa [Int.natAbs_neg]) (Int.neg_le_neg h)
  rw [rounded_neg] at hneg
  exact Int.neg_le_neg_iff.mp hneg

theorem rounded_eq_self {n : Int} (h : Representable n.natAbs) : rounded n = n :=
  le_antisymm (rounded_le h le_rfl) (le_rounded h le_rfl)

theorem natAbs_rounded (n : Int) : (rounded n).natAbs = roundedNat n.natAbs := by
  obtain ⟨k, rfl | rfl⟩ := n.eq_nat_or_neg
  · rw [rounded_natCast, Int.natAbs_natCast, Int.natAbs_natCast]
  · rw [rounded_neg, rounded_natCast, Int.natAbs_neg, Int.natAbs_neg, Int.natAbs_natCast,
      Int.natAbs_natCast]

/-- Rounded, an integer lies below a double just when it does so itself or becomes that double. -/
theorem rounded_le_iff {n b : Int} (hb : Representable b.natAbs) :
    rounded n ≤ b ↔ n ≤ b ∨ rounded n = b := by
  constructor
  · intro h
    obtain hle | hlt := le_or_gt n b
    · exact .inl hle
    · exact .inr (h.antisymm (le_rounded hb hlt.le))
  · rintro (h | h)
    · exact rounded_le hb h
    · exact h.le

theorem le_rounded_iff {n b : Int} (hb : Representable b.natAbs) :
    b ≤ rounded n ↔ b ≤ n ∨ rounded n = b := by
  constructor
  · intro h
    obtain hle | hlt := le_or_gt b n
    · exact .inl hle
    · exact .inr ((rounded_le hb hlt.le).antisymm h)
  · rintro (h | h)
    · exact le_rounded hb h
    · exact h.ge

/-- No integer is rounded to another one of fewer than 54 digits. -/
theorem eq_of_rounded_eq {n b : Int} (h : n.natAbs ≤ 2 ^ 53 ∨ b.natAbs < 2 ^ 53)
    (heq : rounded n = b) : n = b := by
  have hsmall : n.natAbs ≤ 2 ^ 53 := by
    obtain hn | hb := h
    · exact hn
    · by_contra hlarge
      have hle : 2 ^ 53 ≤ roundedNat n.natAbs :=
        (representable_two_pow 53).le_roundedNat (not_le.mp hlarge).le
      rw [← natAbs_rounded, heq] at hle
      omega
  rw [← heq, rounded_eq_self (representable_of_le hsmall)]

/-- Rounding moves a signed number of 64 bits by 512 at most. -/
theorem rounded_close {n : Int} (h : n.natAbs ≤ 2 ^ 63) : (rounded n - n).natAbs ≤ 512 := by
  obtain hlt | hmost := h.lt_or_eq
  · obtain ⟨hbelow, habove⟩ := roundedNat_close hlt
    obtain ⟨k, rfl | rfl⟩ := n.eq_nat_or_neg
    · rw [Int.natAbs_natCast] at hbelow habove
      rw [rounded_natCast]
      omega
    · rw [Int.natAbs_neg, Int.natAbs_natCast] at hbelow habove
      rw [rounded_neg, rounded_natCast]
      omega
  · rw [rounded_eq_self (hmost ▸ representable_two_pow 63), sub_self]
    exact Nat.zero_le _

/-! ### Rounding in the library of doubles -/

/-- What the library of doubles keeps of `n / 2 ^ k`: the quotient, whether the remainder is half of
the divisor or more, and whether it is neither nothing nor half of it. -/
structure Shifted (n k : Nat) (m : ExtendedMantissa) : Prop where
  mantissa : m.mantissa = n / 2 ^ k
  roundBit : m.roundBit = true ↔ 2 ^ k ≤ 2 * (n % 2 ^ k)
  stickyBit : m.stickyBit = true ↔ n % 2 ^ k ≠ 0 ∧ 2 * (n % 2 ^ k) ≠ 2 ^ k

theorem shifted_zero (n : Nat) : Shifted n 0 (.ofMantissaAndAccuracy n .exact) where
  mantissa := (Nat.div_one n).symm
  roundBit := by simp [ExtendedMantissa.ofMantissaAndAccuracy, Nat.mod_one]
  stickyBit := by simp [ExtendedMantissa.ofMantissaAndAccuracy, Nat.mod_one]

/-- A shift by one more moves the last bit of the quotient to the remainder. -/
theorem mod_two_pow_succ_cases (n k : Nat) :
    n / 2 ^ k % 2 = 0 ∧ n % 2 ^ (k + 1) = n % 2 ^ k ∨
      n / 2 ^ k % 2 = 1 ∧ n % 2 ^ (k + 1) = n % 2 ^ k + 2 ^ k := by
  rw [Nat.mod_pow_succ]
  rcases Nat.mod_two_eq_zero_or_one (n / 2 ^ k) with h | h <;> rw [h]
  · exact .inl ⟨rfl, by rw [Nat.mul_zero, Nat.add_zero]⟩
  · exact .inr ⟨rfl, by rw [Nat.mul_one]⟩

theorem Shifted.shiftRightOne {n k : Nat} {m : ExtendedMantissa} (h : Shifted n k m) :
    Shifted n (k + 1) m.shiftRightOne := by
  have hlt : n % 2 ^ k < 2 ^ k := Nat.mod_lt _ (Nat.two_pow_pos k)
  have hpow : 2 ^ (k + 1) = 2 * 2 ^ k := Nat.pow_succ'
  have hparity := mod_two_pow_succ_cases n k
  refine ⟨?_, ?_, ?_⟩
  · rw [ExtendedMantissa.shiftRightOne, h.mantissa, Nat.div_div_eq_div_mul, ← Nat.pow_succ]
  · simp only [ExtendedMantissa.shiftRightOne, h.mantissa, bne_iff_ne]
    omega
  · simp only [ExtendedMantissa.shiftRightOne, Bool.or_eq_true, h.roundBit, h.stickyBit]
    omega

theorem shifted_shiftRight (n k : Nat) :
    Shifted n k (ExtendedMantissa.ofMantissaAndAccuracy n .exact >>> k) := by
  induction k with
  | zero => exact shifted_zero n
  | succ k ih => exact ih.shiftRightOne

theorem Shifted.roundedMantissa {n k : Nat} {m : ExtendedMantissa} (h : Shifted n k m) :
    m.roundedMantissa = roundedQuotient n k := by
  obtain ⟨quotient, roundBit, stickyBit⟩ := m
  have hround := h.roundBit
  have hsticky := h.stickyBit
  have hquotient : quotient = n / 2 ^ k := h.mantissa
  have hlt : n % 2 ^ k < 2 ^ k := Nat.mod_lt _ (Nat.two_pow_pos k)
  rw [ExtendedMantissa.roundedMantissa, roundedQuotient, hquotient]
  cases roundBit <;> cases stickyBit <;>
    simp only [Bool.false_eq_true, false_iff, true_iff, not_le, not_and_or, not_not]
      at hround hsticky
  · rw [if_pos hround]
    rfl
  · rw [if_pos hround]
    rfl
  · rw [if_neg (by omega), if_pos (by omega)]
    rfl
  · rw [if_neg (by omega), if_neg hsticky.2]
    rfl

/-- The low bits that a double has no room for are shifted out. -/
theorem shiftToTargetExponent_eq {m : Nat} {e : Int} (hm : 52 ≤ m.log2)
    (he : -1074 ≤ e + surplus m) :
    shiftToTargetExponent .binary64 m e .exact =
      (ExtendedMantissa.ofMantissaAndAccuracy m .exact >>> surplus m, e + surplus m) := by
  have hlog := surplus_add hm
  have htarget : Format.binary64.targetExponent (totalExponent m e) = e + surplus m := by
    have hleast : Format.binary64.minExponent = -1074 := rfl
    have hbits : Format.binary64.mantissaBits = 53 := rfl
    rw [Format.targetExponent, totalExponent, hleast, hbits]
    omega
  rw [shiftToTargetExponent, htarget, shiftToExponent, add_sub_cancel_left, Int.toNat_natCast]

/-! ### Doubles of full precision -/

/-- Whether the parts are those of a double of full precision. -/
structure Binary.Normal (b : Binary) : Prop where
  full : 2 ^ 52 ≤ b.mantissa
  lt : b.mantissa < 2 ^ 53
  least : -1074 ≤ b.exponent
  most : b.exponent ≤ 971

/-- The parts of a double that is not zero are read back from the library of doubles. -/
theorem Binary.unpacked_injective {b c : Binary} (hb : b.mantissa ≠ 0)
    (h : c.unpacked = b.unpacked) : c = b := by
  obtain ⟨cnegative, cmantissa, cexponent⟩ := c
  obtain ⟨bnegative, bmantissa, bexponent⟩ := b
  rw [unpacked_of_ne_zero hb] at h
  by_cases hc : cmantissa = 0
  · rw [unpacked_of_eq_zero hc] at h
    exact UnpackedFloat.noConfusion h
  · rw [unpacked_of_ne_zero hc] at h
    simp only [finite.injEq] at h
    obtain ⟨hsign, rfl, rfl⟩ := h
    rw [Binary.mk.injEq]
    refine ⟨?_, rfl, rfl⟩
    cases cnegative <;> cases bnegative <;> first | rfl | exact Sign.noConfusion hsign

/-- The parts of the negated number. -/
def Binary.flipped (b : Binary) : Binary :=
  { b with negative := !b.negative }

theorem Binary.value_flipped (b : Binary) : b.flipped.value = -b.value := by
  obtain ⟨negative, mantissa, exponent⟩ := b
  cases negative
  · rfl
  · exact (neg_neg _).symm

theorem Binary.sign_flipped (b : Binary) : b.flipped.sign = -b.sign := by
  obtain ⟨negative, mantissa, exponent⟩ := b
  cases negative <;> rfl

theorem Binary.unpacked_flipped (b : Binary) : b.flipped.unpacked = b.unpacked.neg := by
  by_cases hm : b.mantissa = 0
  · have hm' : b.flipped.mantissa = 0 := hm
    rw [unpacked_of_eq_zero hm, unpacked_of_eq_zero hm', sign_flipped]
    rfl
  · have hm' : b.flipped.mantissa ≠ 0 := hm
    rw [unpacked_of_ne_zero hm, unpacked_of_ne_zero hm', sign_flipped]
    rfl

namespace Binary.Normal

variable {b c : Binary}

theorem mantissa_ne_zero (h : b.Normal) : b.mantissa ≠ 0 := by
  have := h.full
  omega

theorem log2_mantissa (h : b.Normal) : b.mantissa.log2 = 52 :=
  (Nat.log2_eq_iff h.mantissa_ne_zero).mpr ⟨h.full, h.lt⟩

/-- The exponent is stored as a positive number. -/
theorem exists_scale (h : b.Normal) :
    ∃ scale : Nat, b.exponent = scale - 1075 ∧ 1 ≤ scale ∧ scale ≤ 2046 :=
  ⟨(b.exponent + 1075).toNat, by have := h.least; have := h.most; omega⟩

theorem pack_unpacked (h : b.Normal) {scale : Nat} (hscale : b.exponent = scale - 1075)
    (hmost : scale ≤ 2046) :
    UnpackedFloat.pack .binary64 b.unpacked =
      packComponents .binary64 b.sign (BitVec.ofNat 11 scale) (BitVec.ofNat 52 b.mantissa) := by
  have hbiased : (b.exponent + Format.binary64.exponentBias +
      Format.binary64.mantissaBitsWithoutImplicit).toNat = scale := by
    change (b.exponent + 1023 + 52).toNat = scale
    omega
  have hbits : b.mantissa.log2 + 1 = Format.binary64.mantissaBits := by
    rw [h.log2_mantissa]
    rfl
  rw [unpacked_of_ne_zero h.mantissa_ne_zero, UnpackedFloat.pack]
  simp only [hbiased]
  rw [if_neg (by omega), if_pos hbits]

/-- Packing and unpacking a double of full precision loses nothing. -/
theorem unpack_pack (h : b.Normal) : (Float.Model.pack b.unpacked).unpack = b.unpacked := by
  have hfull := h.full
  have hlt := h.lt
  obtain ⟨scale, hscale, hleast, hmost⟩ := h.exists_scale
  have hscaleBits : (BitVec.ofNat 11 scale).toNat = scale := by
    rw [BitVec.toNat_ofNat]
    omega
  have hones : BitVec.ofNat 11 scale ≠ -1#11 := by
    rw [ne_eq, BitVec.toNat_eq, hscaleBits]
    exact fun hmax => absurd (hmax.trans rfl : scale = 2047) (by omega)
  have hzero : BitVec.ofNat 11 scale ≠ 0#11 := by
    rw [ne_eq, BitVec.toNat_eq, hscaleBits]
    exact fun hmin => absurd (hmin.trans rfl : scale = 0) (by omega)
  change UnpackedFloat.unpack .binary64 (UnpackedFloat.pack .binary64 b.unpacked) = _
  rw [h.pack_unpacked hscale hmost, UnpackedFloat.unpack, unpacked_of_ne_zero h.mantissa_ne_zero]
  simp only [unpackExponent_packComponents, unpackMantissa_packComponents]
  rw [if_neg hones, if_neg hzero]
  simp only [finite.injEq]
  refine ⟨?_, ?_, ?_⟩
  · rw [unpackSign_packComponents, Sign.ofBitVec_toBitVec]
  · rw [toNat_append_mantissa, BitVec.toNat_ofNat]
    omega
  · rw [hscaleBits, hscale]
    rfl

/-- The double that is packed from parts of full precision has these parts. -/
theorem ofFloat?_pack (h : b.Normal) :
    ofFloat? (.ofModel (.pack b.unpacked)) = some b := by
  let x : Float := .ofModel (.pack b.unpacked)
  have hx : x.toModel.unpack = b.unpacked := h.unpack_pack
  have hfinite : x.isFinite = true := by
    change x.toModel.unpack.isFinite = true
    rw [hx, unpacked_of_ne_zero h.mantissa_ne_zero]
    rfl
  obtain ⟨c, hc⟩ := Option.isSome_iff_exists.mp ((isSome_ofFloat?_iff x).mpr hfinite)
  have hsame : c.unpacked = b.unpacked := (unpack_of_ofFloat? hc).symm.trans hx
  change ofFloat? x = some b
  rw [hc, unpacked_injective h.mantissa_ne_zero hsame]

/-- Negating a double of full precision flips its sign. -/
theorem ofFloat?_neg (h : b.Normal) {x : Float} (hx : ofFloat? x = some b) :
    ofFloat? (-x) = some b.flipped := by
  have hflipped : b.flipped.Normal := ⟨h.full, h.lt, h.least, h.most⟩
  have hneg : x.toModel.unpack.neg = b.flipped.unpacked := by
    rw [unpack_of_ofFloat? hx, unpacked_flipped]
  rw [← hflipped.ofFloat?_pack, ← hneg]
  rfl

end Binary.Normal

/-! ### Rounding to a double -/

/-- The parts of the double next to `m * 2 ^ e`, where `m` has digits enough. A carry leaves one bit
too many, which is zero. -/
def Binary.next (m : Nat) (e : Int) : Binary :=
  let r := roundedQuotient m (surplus m)
  ⟨false, r / 2 ^ surplus r, e + surplus m + surplus r⟩

section Next

variable {m : Nat} {e : Int} (hm : 52 ≤ m.log2)

include hm

theorem two_pow_le_roundedQuotient_surplus : 2 ^ 52 ≤ roundedQuotient m (surplus m) := by
  refine le_roundedQuotient ?_
  rw [← pow_add, surplus_add hm]
  exact Nat.log2_self_le (by rintro rfl; exact absurd hm (by decide))

theorem Binary.next_cases :
    roundedQuotient m (surplus m) < 2 ^ 53 ∧
        next m e = ⟨false, roundedQuotient m (surplus m), e + surplus m⟩ ∨
      roundedQuotient m (surplus m) = 2 ^ 53 ∧ next m e = ⟨false, 2 ^ 52, e + surplus m + 1⟩ := by
  have hlower := two_pow_le_roundedQuotient_surplus hm
  have hupper : roundedQuotient m (surplus m) ≤ 2 ^ 53 := by
    refine roundedQuotient_le ?_
    rw [← pow_add]
    exact (lt_two_pow_surplus m).le
  rw [next]
  generalize roundedQuotient m (surplus m) = r at *
  obtain hlt | rfl := hupper.lt_or_eq
  · have hnone : surplus r = 0 := by
      rw [surplus, (Nat.log2_eq_iff (by omega)).mpr ⟨hlower, hlt⟩]
    exact .inl ⟨hlt, by simp only [hnone, pow_zero, Nat.div_one, Nat.cast_zero, add_zero]⟩
  · have hone : surplus (2 ^ 53) = 1 := by decide
    have hhalf : 2 ^ 53 / 2 ^ 1 = 2 ^ 52 := Nat.pow_div (by omega) Nat.two_pos
    exact .inr ⟨rfl, by simp only [hone, hhalf, Nat.cast_one]⟩

theorem Binary.normal_next (hleast : -1074 ≤ e + surplus m) (hmost : e + surplus m ≤ 970) :
    (next m e).Normal := by
  obtain ⟨hlt, h⟩ | ⟨-, h⟩ := next_cases (e := e) hm <;> rw [h]
  · exact ⟨two_pow_le_roundedQuotient_surplus hm, hlt, hleast, by simp only; omega⟩
  · exact ⟨le_rfl, Nat.pow_lt_pow_right Nat.one_lt_two (by omega), by simp only; omega,
      by simp only; omega⟩

theorem Binary.value_next :
    (next m e).value = roundedQuotient m (surplus m) * 2 ^ (e + surplus m) := by
  obtain ⟨-, h⟩ | ⟨hr, h⟩ := next_cases (e := e) hm <;> rw [h]
  · rfl
  · have hpow : (2 : ℚ) ^ (e + surplus m + 1) = 2 ^ (e + surplus m) * 2 :=
      zpow_add_one₀ two_ne_zero _
    rw [hr, Binary.value, Binary.absolute]
    simp only [Bool.false_eq_true, if_false, hpow]
    norm_num
    ring

/-- The library of doubles rounds to the double next to a number. -/
theorem roundWithAccuracy_eq (hleast : -1074 ≤ e + surplus m) :
    roundWithAccuracy .binary64 .positive m e .exact = (Binary.next m e).unpacked := by
  have hagain : 52 ≤ (roundedQuotient m (surplus m)).log2 :=
    le_log2 (two_pow_le_roundedQuotient_surplus hm)
  have hleast' : -1074 ≤ e + surplus m + surplus (roundedQuotient m (surplus m)) := by omega
  rw [roundWithAccuracy, shiftToTargetExponent_eq hm hleast]
  simp only [(shifted_shiftRight _ _).roundedMantissa, shiftToTargetExponent_eq hagain hleast',
    (shifted_shiftRight _ _).mantissa]
  rfl

theorem ofFloat?_roundWithAccuracy (hleast : -1074 ≤ e + surplus m)
    (hmost : e + surplus m ≤ 970) :
    Binary.ofFloat? (.ofModel (.pack (roundWithAccuracy .binary64 .positive m e .exact))) =
      some (Binary.next m e) := by
  rw [roundWithAccuracy_eq hm hleast]
  exact (Binary.normal_next hm hleast hmost).ofFloat?_pack

end Next

/-- The double one. -/
theorem unpack_one :
    (Float.ofBits 0x3FF0000000000000).toModel.unpack = (⟨false, 2 ^ 52, -52⟩ : Binary).unpacked :=
  Binary.unpack_of_ofFloat? (by decide)

/-! ### The double next to an integer -/

section Scaled

variable {k j : Nat} (hk : k ≠ 0) (hj : 52 ≤ k.log2 + j)

include hk

theorem log2_scaled : (k * 2 ^ j).log2 = k.log2 + j := by
  rw [Nat.log2_eq_iff (Nat.mul_ne_zero hk (Nat.two_pow_pos j).ne'), pow_add, add_right_comm,
    pow_add]
  exact ⟨Nat.mul_le_mul_right _ (Nat.log2_self_le hk),
    Nat.mul_lt_mul_of_pos_right Nat.lt_log2_self (Nat.two_pow_pos j)⟩

include hj

theorem neg_add_surplus_scaled : -(j : Int) + surplus (k * 2 ^ j) = k.log2 - 52 := by
  rw [surplus, log2_scaled hk]
  omega

/-- However far a number is shifted up first, it is rounded alike. -/
theorem value_next_scaled : (Binary.next (k * 2 ^ j) (-j)).value = roundedNat k := by
  have hm : 52 ≤ (k * 2 ^ j).log2 := by rwa [log2_scaled hk]
  rw [Binary.value_next hm, neg_add_surplus_scaled hk hj]
  by_cases hlarge : 52 ≤ k.log2
  · have hsurplus : surplus (k * 2 ^ j) = surplus k + j := by
      rw [surplus, surplus, log2_scaled hk]
      omega
    have hscale : (k.log2 : Int) - 52 = surplus k := by
      rw [surplus]
      omega
    rw [hsurplus, roundedQuotient_mul, hscale, roundedNat, Nat.cast_mul, zpow_natCast, Nat.cast_pow]
    rfl
  · have hsmall : k ≤ 2 ^ 53 := by
      have hlt : k < 2 ^ 52 := (Nat.log2_lt hk).mp (not_le.mp hlarge)
      omega
    obtain ⟨i, hi⟩ : ∃ i, k.log2 + i = 52 := ⟨52 - k.log2, by omega⟩
    have hsurplus : surplus (k * 2 ^ j) = j - i := by
      rw [surplus, log2_scaled hk]
      omega
    have hsplit : k * 2 ^ j = k * 2 ^ i * 2 ^ (j - i) := by
      rw [mul_assoc, ← pow_add, Nat.add_sub_cancel' (by omega)]
    have hquotient := roundedQuotient_mul (k * 2 ^ i) 0 (j - i)
    rw [Nat.zero_add, roundedQuotient_zero, ← hsplit] at hquotient
    have hscale : (k.log2 : Int) - 52 = -i := by omega
    have hne : (2 : ℚ) ^ i ≠ 0 := pow_ne_zero i two_ne_zero
    rw [hsurplus, hquotient, hscale, (representable_of_le hsmall).roundedNat_eq, zpow_neg,
      zpow_natCast]
    push_cast
    rw [mul_assoc, mul_inv_cancel₀ hne, mul_one]

end Scaled

/-- A natural number below `2 ^ 64`, shifted up, is rounded to a double. -/
theorem ofFloat?_scaled {k j : Nat} (hk : k ≠ 0) (hlt : k < 2 ^ 64) (hj : 52 ≤ k.log2 + j) :
    (Binary.next (k * 2 ^ j) (-j)).Normal ∧
      Binary.ofFloat? (.ofModel (.pack
        (roundWithAccuracy .binary64 .positive (k * 2 ^ j) (-j) .exact))) =
          some (Binary.next (k * 2 ^ j) (-j)) := by
  have hm : 52 ≤ (k * 2 ^ j).log2 := by rwa [log2_scaled hk]
  have hscale := neg_add_surplus_scaled hk hj
  have hlog : k.log2 < 64 := (Nat.log2_lt hk).mpr hlt
  have hleast : -1074 ≤ -(j : Int) + surplus (k * 2 ^ j) := by omega
  have hmost : -(j : Int) + surplus (k * 2 ^ j) ≤ 970 := by omega
  exact ⟨Binary.normal_next hm hleast hmost, ofFloat?_roundWithAccuracy hm hleast hmost⟩

/-- A natural number of few digits is first converted as it is. -/
theorem toFloat_eq {k : Nat} (hk : k ≠ 0) (hlt : k < 2 ^ 53) :
    k.toUInt64.toFloat = .ofModel (.pack (roundWithAccuracy .binary64 .positive
      (k * 2 ^ (52 - k.log2)) (-(52 - k.log2 : Nat)) .exact)) := by
  have hword : k.toUInt64.toNat = k := by
    rw [Nat.toUInt64, UInt64.toNat_ofNat']
    omega
  have hlog : k.log2 < 53 := (Nat.log2_lt hk).mpr hlt
  have htarget : (-Format.binary64.targetExponent (totalExponent k 0)).toNat = 52 - k.log2 := by
    have hleast : Format.binary64.minExponent = -1074 := rfl
    have hbits : Format.binary64.mantissaBits = 53 := rfl
    rw [Format.targetExponent, totalExponent, hleast, hbits]
    omega
  have hpos : compare (k : Int) 0 = .gt := compare_gt_iff_gt.mpr (by omega)
  rw [UInt64.toFloat, Float.Model.ofUInt64, UnpackedFloat.ofUInt64, UnpackedFloat.ofNat,
    UnpackedFloat.ofInt, UnpackedFloat.normalize, hword, hpos]
  simp only [UnpackedFloat.round, decreaseExponent, Int.toNat_natCast, htarget, Nat.shiftLeft_eq,
    zero_sub]

/-- A number of just the right count of digits is not rounded. -/
theorem Binary.next_of_log2 {m : Nat} (e : Int) (h : m.log2 = 52) : next m e = ⟨false, m, e⟩ := by
  have hnone : surplus m = 0 := by rw [surplus, h]
  simp only [next, hnone, roundedQuotient_zero, pow_zero, Nat.div_one, Nat.cast_zero, add_zero]

/-- Multiplying a double by one rounds it with 52 bits more. -/
theorem mul_one_eq {x : Float} {m : Nat} {e : Int} (hm : m ≠ 0)
    (hx : Binary.ofFloat? x = some ⟨false, m, e⟩) :
    x * Float.ofBits 0x3FF0000000000000 =
      .ofModel (.pack (roundWithAccuracy .binary64 .positive (m * 2 ^ 52) (e - 52) .exact)) := by
  change Float.ofModel (.pack (UnpackedFloat.mul .binary64 x.toModel.unpack
    (Float.ofBits 0x3FF0000000000000).toModel.unpack)) = _
  rw [unpack_one, Binary.unpack_of_ofFloat? hx,
    Binary.unpacked_of_ne_zero (b := ⟨false, m, e⟩) hm,
    Binary.unpacked_of_ne_zero (b := ⟨false, 2 ^ 52, -52⟩) (by decide)]
  rfl

/-- A natural number of many digits is shifted up by 53 bits first. -/
theorem ofScientific_eq {k : Nat} (hk : k ≠ 0) (hmany : ¬ k < 2 ^ 53) :
    Float.ofScientific k false 0 =
      .ofModel (.pack (roundWithAccuracy .binary64 .positive (k * 2 ^ 53) (-53) .exact)) := by
  have hmodel : Float.ofScientific k false 0 =
      .ofModel (.pack (UnpackedFloat.ofScientific .binary64 k 0)) :=
    dif_neg (not_and_of_not_left _ hmany)
  have hsmall : ¬ (0 : Int) < -((2 ^ Format.binary64.exponentBits : Int) + k.log2) := by
    have : (0 : Int) ≤ 2 ^ Format.binary64.exponentBits := by decide
    omega
  rw [hmodel, UnpackedFloat.ofScientific, dif_neg hk, if_neg (by decide), if_neg hsmall,
    if_pos le_rfl]
  simp only [UnpackedFloat.mul, Nat.shiftLeft_eq, Int.toNat_zero, pow_zero, mul_one]
  rfl

/-- A natural number is converted to a double that denotes it rounded. -/
theorem exists_ofScientific {k : Nat} (hk : k ≠ 0) (hlt : k < 2 ^ 64) :
    ∃ b : Binary, b.Normal ∧ Binary.ofFloat? (Float.ofScientific k false 0) = some b ∧
      b.value = roundedNat k := by
  -- Few digits are converted as they are and multiplied by one, so that they are rounded twice.
  by_cases hfew : k < 2 ^ 53
  · have hlog : k.log2 < 53 := (Nat.log2_lt hk).mpr hfew
    obtain ⟨s, hs⟩ : ∃ s, 52 - k.log2 = s := ⟨_, rfl⟩
    obtain ⟨-, hfirst⟩ := ofFloat?_scaled (j := s) hk hlt (by omega)
    obtain ⟨hnormal, hsecond⟩ := ofFloat?_scaled (j := s + 52) hk hlt (by omega)
    have hlog' : (k * 2 ^ s).log2 = 52 := by
      rw [log2_scaled hk]
      omega
    have hpos : k * 2 ^ s ≠ 0 := Nat.mul_ne_zero hk (Nat.two_pow_pos s).ne'
    rw [Binary.next_of_log2 _ hlog'] at hfirst
    refine ⟨_, hnormal, ?_, value_next_scaled hk (by omega)⟩
    rw [← hsecond, Float.ofScientific, dif_pos ⟨hfew, by omega⟩, if_neg Bool.false_ne_true,
      toFloat_eq hk hfew, hs, pow_add, ← mul_assoc, Nat.cast_add, neg_add]
    exact congrArg _ (mul_one_eq hpos hfirst)
  · obtain ⟨hnormal, hparts⟩ := ofFloat?_scaled (j := 53) hk hlt (by omega)
    refine ⟨_, hnormal, ?_, value_next_scaled hk (by omega)⟩
    rw [ofScientific_eq hk hfew]
    exact hparts

/-- The double next to an integer denotes the integer, rounded. -/
theorem value?_ofInteger {n : Int} (h : n.natAbs < 2 ^ 64) :
    value? (ofInteger n) = some (rounded n : ℚ) := by
  match n with
  | .ofNat 0 =>
    have hb : Binary.ofFloat? (ofInteger 0) = some ⟨false, 0, -1074⟩ := by decide
    rw [Int.ofNat_eq_natCast, Nat.cast_zero, value?, hb, Option.map_some, Binary.value_eq_zero rfl]
    rfl
  | .ofNat (k + 1) =>
    obtain ⟨b, -, hb, hvalue⟩ := exists_ofScientific k.succ_ne_zero h
    rw [ofInteger, value?, hb, Option.map_some, hvalue, Int.ofNat_eq_natCast, rounded_natCast,
      Int.cast_natCast]
  | .negSucc k =>
    obtain ⟨b, hnormal, hb, hvalue⟩ := exists_ofScientific k.succ_ne_zero h
    have hneg : rounded (.negSucc k) = -(roundedNat (k + 1) : Int) := by
      rw [Int.negSucc_eq, ← Nat.cast_succ, rounded_neg, rounded_natCast]
    rw [ofInteger, value?, hnormal.ofFloat?_neg hb, Option.map_some, Binary.value_flipped, hvalue,
      hneg, Int.cast_neg, Int.cast_natCast]

end PathRules.Decimal
