import Criteria.Decimal.Thousandth
import Criteria.Proofs.ExactDigits
import Criteria.Proofs.NearestData

/-!
# Numbers of thousandths

A number of thousandths is written out in full but for the zeros at its end, so its text has exactly
its value, and no point if that is an integer. The nearest number of thousandths is within half of
one.
-/

namespace Criteria.Thousandth
set_option autoImplicit false

/-- The three digits behind the point. -/
def decimals (n : Nat) : List Char := [n / 100 % 10, n / 10 % 10, n % 10].map Nat.digitChar

theorem fraction_eq (n : Nat) : fraction n = Layout.significant (decimals n) := by
  have hzero : (fun d : Nat => d == 0) = (· == '0') ∘ Nat.digitChar := by
    funext d
    rw [Bool.eq_iff_iff]
    simp [Nat.digitChar_eq_zero]
  simp only [fraction, Layout.significant, decimals, hzero, ← List.map_reverse, List.dropWhile_map]

theorem exists_decimals (n : Nat) : ∃ k, decimals n = fraction n ++ Layout.zeros k := by
  rw [fraction_eq]
  exact Layout.exists_significant (decimals n)

theorem decimals_all (n : Nat) : (decimals n).all Char.isDigit := by
  simp [decimals, Nat.isDigit_digitChar, Nat.mod_lt]

theorem ofDigitChars_decimals (n m : Nat) :
    Nat.ofDigitChars 10 (decimals n) m = m * 1000 + n % 1000 := by
  have hlt (d : Nat) : d % 10 < 10 := Nat.mod_lt d (by decide)
  simp only [decimals, List.map, Nat.ofDigitChars_cons_digitChar_of_lt_ten (hlt _),
    Nat.ofDigitChars_nil]
  omega

theorem fraction_getD (s : Bool) (n : Nat) : (literal s n).fraction.getD [] = fraction n := by
  simp only [literal]
  split
  · next h => exact (List.isEmpty_iff.mp h).symm
  · rfl

theorem literal_wellFormed (s : Bool) (n : Nat) : (literal s n).WellFormed where
  whole := Layout.toDigits_all _
  fraction := by
    rw [fraction_getD, fraction_eq]
    exact Layout.significant_all (decimals_all n)
  nonempty := .inl Nat.toDigits_ne_nil
  exponent := by simp [literal]

/-- With the zeros at its end the text is a number of thousandths, and zero has no sign. -/
theorem exists_padded (s : Bool) (n : Nat) :
    ∃ k, (literal s n).decimal.padded k = ⟨s && n != 0, n, -3⟩ := by
  obtain ⟨k, hk⟩ := exists_decimals n
  have hdigits : Nat.ofDigitChars 10 (Nat.toDigits 10 (n / 1000) ++ fraction n) 0 * 10 ^ k = n := by
    rw [← Layout.ofDigitChars_zeros, List.append_assoc, ← hk, Nat.ofDigitChars_append,
      Nat.ofDigitChars_ten_toDigits, ofDigitChars_decimals]
    omega
  have hlen : 3 = (fraction n).length + k := by
    have := congrArg List.length hk
    rwa [List.length_append, Layout.zeros, List.length_replicate] at this
  refine ⟨k, ?_⟩
  rw [Decimal.padded, Literal.decimal, fraction_getD, Literal.isNegative]
  simp only [literal, Layout.sign_beq, hdigits, Option.elim_none, Decimal.mk.injEq, true_and]
  omega

theorem literal_toBinary {f : Format} (hf : 0 < f.fractionBits) (s : Bool) (n : Nat) :
    (literal s n).decimal.toBinary f = .ofUnits (s && n != 0) (n * f.one) 1000 := by
  obtain ⟨k, hk⟩ := exists_padded s n
  rw [← Decimal.toBinary_padded hf _ k, hk, Decimal.toBinary_eq_ofUnits hf]
  simp [Decimal.numerator, Decimal.denominator]

theorem signed_and_ne_zero (s : Bool) (n : Nat) :
    signed (s && n != 0) (n / 1000) = signed s (n / 1000) := by
  rcases Nat.eq_zero_or_pos n with rfl | h
  · cases s <;> simp [signed]
  · rw [bne_iff_ne.mpr h.ne', Bool.and_true]

theorem dvd_of_fraction_eq_nil {n : Nat} (h : fraction n = []) : 1000 ∣ n := by
  obtain ⟨k, hk⟩ := exists_decimals n
  have hvalue := ofDigitChars_decimals n 0
  rw [hk, h, Layout.ofDigitChars_zeros, Nat.ofDigitChars_nil] at hvalue
  omega

/-- A text without a point is that of the integer. -/
theorem cast_of_integer? {s : Bool} {n : Nat} {m : Int} (h : (literal s n).integer? = some m) :
    (m : ℚ) = signed s (n / 1000) := by
  have hempty : fraction n = [] := by
    by_contra hne
    simp [Literal.integer?, literal, hne] at h
  obtain ⟨q, rfl⟩ := dvd_of_fraction_eq_nil hempty
  have hm : (if s && 1000 * q != 0 then -(q : Int) else q) = m := by
    simpa [Literal.integer?, Literal.isNegative, literal, hempty, Layout.sign_beq] using h
  rw [← signed_and_ne_zero, Nat.cast_mul, Nat.cast_ofNat, mul_div_cancel_left₀ _ (by norm_num),
    ← hm, signed]
  split <;> simp

theorem abs_nearest_sub_le (f : Format) (rank : Nat) :
    |(nearest f rank : ℚ) / 1000 - f.units rank / f.one| ≤ 1 / 2000 := by
  obtain ⟨⟨hhi, _⟩, hlo, _⟩ := divEven_bounds (f.units rank * 1000) f.one_pos
  have hone : (0 : ℚ) < f.one := by exact_mod_cast f.one_pos
  have hden : (0 : ℚ) < 1000 * f.one := by positivity
  have hhi' : 2 * (nearest f rank * f.one : ℚ) ≤ 2 * (f.units rank * 1000) + f.one := by
    exact_mod_cast hhi
  have hlo' : 2 * (f.units rank * 1000 : ℚ) ≤ 2 * (nearest f rank * f.one) + f.one := by
    exact_mod_cast hlo
  rw [div_sub_div _ _ (by norm_num) hone.ne', abs_div, abs_of_pos hden, div_le_iff₀ hden,
    abs_le]
  constructor <;> linarith

theorem nearest_mod_two_of_halfway {f : Format} {rank : Nat}
    (h : |(nearest f rank : ℚ) / 1000 - f.units rank / f.one| = 1 / 2000) :
    nearest f rank % 2 = 0 := by
  obtain ⟨⟨_, hhi⟩, _, hlo⟩ := divEven_bounds (f.units rank * 1000) f.one_pos
  have hone : (0 : ℚ) < f.one := by exact_mod_cast f.one_pos
  have hden : (0 : ℚ) < 1000 * f.one := by positivity
  rw [div_sub_div _ _ (by norm_num) hone.ne', abs_div, abs_of_pos hden, div_eq_iff hden.ne'] at h
  rcases eq_or_eq_neg_of_abs_eq h with h | h
  · apply hhi
    have hhi' : 2 * (nearest f rank * f.one : ℚ) = 2 * (f.units rank * 1000) + f.one := by linarith
    exact_mod_cast hhi'
  · apply hlo
    have hlo' : 2 * (f.units rank * 1000 : ℚ) = 2 * (nearest f rank * f.one) + f.one := by linarith
    exact_mod_cast hlo'

/-- The nearest number of thousandths is read without overflow. From two to the 23 on it is the
float itself, an integer, and below it is not beyond that bound. -/
theorem nearestRank_lt_top {rank : Nat} (h : rank < Format.single.top) :
    Format.single.nearestRank (nearest .single rank * Format.single.one) 1000 <
      Format.single.top := by
  rcases Nat.le_total (2 ^ 23 * Format.single.one) (Format.single.units rank) with hr | hr
  · obtain ⟨q, hq⟩ := Format.single.two_pow_dvd_units (s := Format.single.fineness) hr
    have hq' : Format.single.units rank = q * Format.single.one := hq.trans (Nat.mul_comm _ _)
    have hn : nearest .single rank = q * 1000 := by
      rw [nearest, hq', Nat.mul_right_comm, divEven_mul _ Format.single.one_pos]
    rwa [hn, Nat.mul_right_comm, ← hq', Format.single.nearestRank_units rank (by decide)]
  · have hn : nearest .single rank ≤ 2 ^ 23 * 1000 := by
      apply divEven_le Format.single.one_pos
      rw [Nat.mul_right_comm]
      exact Nat.mul_le_mul_right 1000 hr
    refine Nat.lt_of_le_of_lt ?_ (Format.single_rankOf_lt_top (n := 2 ^ 23) (by decide))
    apply Format.single.nearestRank_mono (by decide) (by decide) (by decide)
    rw [Nat.mul_one, Nat.mul_right_comm (2 ^ 23)]
    exact Nat.mul_le_mul_right _ hn

end Criteria.Thousandth
