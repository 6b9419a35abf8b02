import Criteria.Binary.Nearest
import Criteria.Decimal.Basic

/-!
# A decimal is rounded by its exact value

Reading a decimal takes shortcuts where the exponent is far outside the format. They change nothing:
the result is the magnitude nearest to the exact quotient, so two spellings of one number, with more
zeros among the digits and a smaller exponent, are read alike.
-/

namespace Criteria
set_option autoImplicit false

namespace Format
variable (f : Format)

@[simp] theorem units_zero : f.units 0 = 0 := units_of_lt f (Nat.two_pow_pos _)

theorem le_nearestRank (hf : 0 < f.fractionBits) {r num den : Nat} (pos : 0 < den)
    (h : f.units r * den ≤ num) : r ≤ f.nearestRank num den := by
  have hr := nearestRank_mono f hf (Nat.one_pos) pos (a := f.units r * 1) (b := 1) (c := num)
    (by simpa using h)
  rwa [nearestRank_units f r Nat.one_pos] at hr

theorem nearestRank_eq_zero (hf : 0 < f.fractionBits) {num den : Nat} (h : 2 * num < den) :
    f.nearestRank num den = 0 := by
  have pos : 0 < den := by omega
  obtain ⟨lower, _⟩ := nearestRank_bounds f hf num pos
  cases hr : f.nearestRank num den with
  | zero => rfl
  | succ k =>
    have hk := (lower k hr).1
    have hu : 1 ≤ f.units k + f.units (k + 1) := by
      have := units_lt_succ f k
      omega
    have := Nat.mul_le_mul_right den hu
    omega

theorem nearestRank_zero (hf : 0 < f.fractionBits) {den : Nat} (pos : 0 < den) :
    f.nearestRank 0 den = 0 :=
  f.nearestRank_eq_zero hf (by omega)

theorem nearestRank_congr (hf : 0 < f.fractionBits) {a b c d : Nat} (hb : 0 < b) (hd : 0 < d)
    (h : a * d = c * b) : f.nearestRank a b = f.nearestRank c d :=
  Nat.le_antisymm (nearestRank_mono f hf hb hd (Nat.le_of_eq h))
    (nearestRank_mono f hf hd hb (Nat.le_of_eq h.symm))

theorem fineness_le_reach : f.fineness ≤ f.reach := by
  have h : 2 ^ (f.exponentBits - 1) ≤ 2 ^ f.exponentBits :=
    Nat.pow_le_pow_right (by omega) (by omega)
  exact Nat.add_le_add_right (Nat.le_trans (Nat.sub_le _ 2) h) f.fractionBits

theorem units_top_le : f.units f.top ≤ 2 ^ f.reach := by
  have he : 0 < 2 ^ f.exponentBits := Nat.two_pow_pos _
  obtain ⟨s, hs⟩ := Nat.exists_eq_add_of_lt he
  rw [Nat.zero_add] at hs
  have htop : f.top = s * 2 ^ f.fractionBits := by rw [top, hs, Nat.add_sub_cancel]
  have hreach : f.reach = s + 1 + f.fractionBits := by rw [reach, hs]
  cases s with
  | zero => rw [htop, Nat.zero_mul, units_zero]; exact Nat.zero_le _
  | succ s =>
    have hblock : f.top = 2 ^ f.fractionBits + s * 2 ^ f.fractionBits := by
      rw [htop, Nat.succ_mul, Nat.add_comm]
    rw [hblock, units_block f (Nat.le_refl _) (by omega), hreach, ← Nat.pow_add]
    exact Nat.pow_le_pow_right (by omega) (by omega)

end Format

namespace Decimal
variable {f : Format}

/-- The exact magnitude in least magnitudes of a format, as the quotient of two naturals. -/
def numerator (f : Format) (d : Decimal) : Nat := d.digits * 10 ^ d.exponent.toNat * f.one

def denominator (d : Decimal) : Nat := 10 ^ (-d.exponent).toNat

theorem denominator_pos (d : Decimal) : 0 < d.denominator := Nat.pow_pos (by omega)

theorem two_pow_le_ten_pow (e : Nat) : 2 ^ e ≤ 10 ^ e := Nat.pow_le_pow_left (by omega) e

theorem top_le_nearestRank (hf : 0 < f.fractionBits) {digits e : Nat} (hd : digits ≠ 0)
    (he : f.reach ≤ e) : f.top ≤ f.nearestRank (digits * 10 ^ e * f.one) 1 := by
  apply f.le_nearestRank hf Nat.one_pos
  have hone : 1 ≤ f.one := Nat.one_le_two_pow
  calc f.units f.top * 1 = f.units f.top := Nat.mul_one _
    _ ≤ 2 ^ f.reach := f.units_top_le
    _ ≤ 2 ^ e := Nat.pow_le_pow_right (by omega) he
    _ ≤ 10 ^ e := two_pow_le_ten_pow e
    _ ≤ digits * 10 ^ e := Nat.le_mul_of_pos_left _ (by omega)
    _ ≤ digits * 10 ^ e * f.one := Nat.le_mul_of_pos_right _ hone

theorem nearestRank_eq_zero_of_far (hf : 0 < f.fractionBits) {digits k : Nat}
    (hk : digits.log2 + f.reach ≤ k) : f.nearestRank (digits * f.one) (10 ^ (k + 1)) = 0 := by
  apply f.nearestRank_eq_zero hf
  have hlog : digits < 2 ^ (digits.log2 + 1) := Nat.lt_log2_self
  have hone : f.one ≤ 2 ^ f.reach := Nat.pow_le_pow_right (by omega) f.fineness_le_reach
  calc 2 * (digits * f.one) ≤ 2 * (digits * 2 ^ f.reach) := by
        exact Nat.mul_le_mul_left 2 (Nat.mul_le_mul_left digits hone)
    _ < 2 * (2 ^ (digits.log2 + 1) * 2 ^ f.reach) := by
        have := Nat.mul_lt_mul_of_pos_right hlog (Nat.two_pow_pos f.reach)
        omega
    _ = 4 * 2 ^ (digits.log2 + f.reach) := by
        rw [Nat.pow_succ, Nat.pow_add 2 digits.log2, Nat.mul_right_comm]
        omega
    _ ≤ 4 * 2 ^ k := Nat.mul_le_mul_left 4 (Nat.pow_le_pow_right (by omega) hk)
    _ ≤ 10 * 10 ^ k := Nat.mul_le_mul (by omega) (two_pow_le_ten_pow k)
    _ = 10 ^ (k + 1) := by rw [Nat.pow_succ, Nat.mul_comm]

/-- A decimal is rounded once, from its exact value. -/
theorem toBinary_eq_ofUnits (hf : 0 < f.fractionBits) (d : Decimal) :
    d.toBinary f = .ofUnits d.negative (d.numerator f) d.denominator := by
  obtain ⟨negative, digits, exponent⟩ := d
  unfold toBinary numerator denominator
  simp only
  by_cases hd : digits = 0
  · subst hd
    have := f.nearestRank_units 0 (denominator_pos ⟨negative, 0, exponent⟩)
    simp only [Format.units_zero, Nat.zero_mul] at this
    simp only [if_pos, Nat.zero_mul, Binary.zero, Binary.ofUnits]
    rw [show (10 ^ (-exponent).toNat) = denominator ⟨negative, 0, exponent⟩ from rfl, this]
  rw [if_neg hd]
  cases exponent with
  | ofNat e =>
    have he : (-(e : Int)).toNat = 0 := by omega
    simp only [Int.ofNat_eq_natCast, Int.toNat_natCast, he, Nat.pow_zero]
    split
    · next h =>
      exact (Binary.ofRank_eq_infinite (top_le_nearestRank hf hd h)).symm
    · rfl
  | negSucc k =>
    have he : (-Int.negSucc k).toNat = k + 1 := by simp
    simp only [he, Int.toNat_negSucc, Nat.pow_zero, Nat.mul_one]
    split
    · next h =>
      rw [Binary.ofUnits, nearestRank_eq_zero_of_far hf h, Binary.zero]
    · rfl

/-- The same number, written with more zeros. -/
def padded (d : Decimal) (zeros : Nat) : Decimal :=
  ⟨d.negative, d.digits * 10 ^ zeros, d.exponent - zeros⟩

theorem toBinary_padded (hf : 0 < f.fractionBits) (d : Decimal) (zeros : Nat) :
    (d.padded zeros).toBinary f = d.toBinary f := by
  rw [toBinary_eq_ofUnits hf, toBinary_eq_ofUnits hf]
  unfold Binary.ofUnits
  congr 1
  apply f.nearestRank_congr hf (denominator_pos _) (denominator_pos _)
  simp only [numerator, denominator, padded]
  have hexp : zeros + (d.exponent - zeros).toNat + (-d.exponent).toNat =
      d.exponent.toNat + (-(d.exponent - zeros)).toNat := by omega
  have hpow := congrArg (10 ^ ·) hexp
  simp only [Nat.pow_add] at hpow
  calc d.digits * 10 ^ zeros * 10 ^ (d.exponent - zeros).toNat * f.one * 10 ^ (-d.exponent).toNat
      = d.digits * f.one * (10 ^ zeros * 10 ^ (d.exponent - zeros).toNat *
          10 ^ (-d.exponent).toNat) := by ac_rfl
    _ = d.digits * f.one * (10 ^ d.exponent.toNat * 10 ^ (-(d.exponent - zeros)).toNat) := by
        rw [hpow]
    _ = d.digits * 10 ^ d.exponent.toNat * f.one * 10 ^ (-(d.exponent - zeros)).toNat := by ac_rfl

end Decimal
end Criteria
