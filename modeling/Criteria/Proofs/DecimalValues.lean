import Mathlib.Algebra.Order.Field.Power
import Mathlib.Tactic.Positivity
import Criteria.Proofs.DecimalRounding
import Criteria.Proofs.NearestData

/-!
# The value of a decimal

A decimal is read as the datum nearest to its value. So decimals of one value and sign are read alike,
and what lies between two decimals of one rank has that rank, too.
-/

namespace Criteria
set_option autoImplicit false

theorem Format.cast_ten_pow_fineness (f : Format) :
    (10 : ℚ) ^ f.fineness = 5 ^ f.fineness * f.one := by
  exact_mod_cast Nat.mul_pow 5 2 f.fineness

theorem Format.cast_one_ne_zero (f : Format) : (f.one : ℚ) ≠ 0 := by exact_mod_cast f.one_pos.ne'

namespace Decimal
variable {f : Format} {d e : Decimal}

/-- The exact value without the sign. -/
def magnitude (d : Decimal) : ℚ := d.digits * 10 ^ d.exponent

/-- The exact number. -/
def toRat (d : Decimal) : ℚ := signed d.negative (d.digits * (10 : ℚ) ^ d.exponent)

/-- The rank of the magnitude that is nearest to a decimal. -/
def rank (f : Format) (d : Decimal) : Nat := f.nearestRank (d.numerator f) d.denominator

theorem magnitude_eq_zero_iff : d.magnitude = 0 ↔ d.digits = 0 := by
  have hten : (10 : ℚ) ^ d.exponent ≠ 0 := zpow_ne_zero _ (by norm_num)
  rw [magnitude, mul_eq_zero, or_iff_left hten, Nat.cast_eq_zero]

/-- The magnitude as the quotient that is rounded. -/
theorem magnitude_eq_div (f : Format) (d : Decimal) :
    d.magnitude = d.numerator f / d.denominator / f.one := by
  rw [magnitude, numerator, denominator, div_right_comm, Nat.cast_mul,
    mul_div_cancel_right₀ _ f.cast_one_ne_zero]
  push_cast
  obtain ⟨n, h | h⟩ := d.exponent.eq_nat_or_neg
  · rw [h, Int.toNat_natCast, Int.toNat_neg_natCast, pow_zero, div_one, zpow_natCast]
  · rw [h, neg_neg, Int.toNat_natCast, Int.toNat_neg_natCast, pow_zero, mul_one, zpow_neg,
      zpow_natCast, div_eq_mul_inv]

theorem magnitude_padded (d : Decimal) (zeros : Nat) : (d.padded zeros).magnitude = d.magnitude := by
  have hpow : (10 : ℚ) ^ zeros * 10 ^ (d.exponent - zeros) = 10 ^ d.exponent := by
    rw [zpow_sub₀ (by norm_num), zpow_natCast, mul_div_cancel₀ _ (by positivity)]
  rw [magnitude, magnitude, padded, Nat.cast_mul, Nat.cast_pow, Nat.cast_ofNat, mul_assoc, hpow]

theorem toRat_padded (d : Decimal) (zeros : Nat) : (d.padded zeros).toRat = d.toRat :=
  congrArg (signed d.negative) (magnitude_padded d zeros)

theorem toBinary_eq_ofRank (hf : 0 < f.fractionBits) (d : Decimal) :
    d.toBinary f = .ofRank d.negative (d.rank f) :=
  toBinary_eq_ofUnits hf d

/-- A decimal is read as the nearest datum. -/
theorem isNearest_toBinary (hf : 0 < f.fractionBits) (h : (d.toBinary f).isFinite = true) :
    (d.toBinary f).IsNearest d.toRat := by
  rw [toBinary_eq_ofUnits hf] at h ⊢
  rw [toRat, ← magnitude, magnitude_eq_div f]
  apply Binary.isNearest_ofUnits hf _ _ d.denominator_pos
  by_contra hlarge
  rw [Binary.ofUnits, Binary.ofRank_eq_infinite (Nat.not_lt.mp hlarge)] at h
  exact Bool.false_ne_true h

theorem rank_eq_zero (hf : 0 < f.fractionBits) (h : d.magnitude = 0) : d.rank f = 0 := by
  rw [rank, numerator, magnitude_eq_zero_iff.mp h, Nat.zero_mul, Nat.zero_mul]
  exact f.nearestRank_zero hf d.denominator_pos

theorem rank_mono (hf : 0 < f.fractionBits) (h : d.magnitude ≤ e.magnitude) :
    d.rank f ≤ e.rank f := by
  apply f.nearestRank_mono hf d.denominator_pos e.denominator_pos
  have hone : (0 : ℚ) < f.one := by exact_mod_cast f.one_pos
  have hd : (0 : ℚ) < d.denominator := by exact_mod_cast d.denominator_pos
  have he : (0 : ℚ) < e.denominator := by exact_mod_cast e.denominator_pos
  rw [magnitude_eq_div f d, magnitude_eq_div f e, div_le_div_iff_of_pos_right hone,
    div_le_div_iff₀ hd he] at h
  exact_mod_cast h

theorem rank_congr (hf : 0 < f.fractionBits) (h : d.magnitude = e.magnitude) :
    d.rank f = e.rank f :=
  Nat.le_antisymm (rank_mono hf h.le) (rank_mono hf h.ge)

theorem toBinary_congr (hf : 0 < f.fractionBits) (hs : d.negative = e.negative)
    (h : d.magnitude = e.magnitude) : d.toBinary f = e.toBinary f := by
  rw [toBinary_eq_ofRank hf, toBinary_eq_ofRank hf, hs, rank_congr hf h]

end Decimal
end Criteria
