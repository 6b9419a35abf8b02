import Mathlib.Tactic.Ring
import Criteria.Proofs.IntegerRounding

/-!
# Rounded quotients of integers

The quotient of an integer no wider than a mantissa by another integer never rounds up to an integer
it does not reach: it stays further below than half the spacing there. So its integer part is the
integer quotient.
-/

namespace Criteria.Format
set_option autoImplicit false
variable (f : Format)

/-- Relative to the magnitude the spacing is at most two to the minus `fractionBits`. -/
theorem units_succ_mul_le {r : Nat} (h : 2 ^ f.fractionBits ≤ r) :
    f.units (r + 1) * 2 ^ f.fractionBits ≤ f.units r * (2 ^ f.fractionBits + 1) := by
  obtain ⟨m, s, lo, hi, rfl⟩ := exists_block f h
  rw [Nat.add_right_comm, units_block f lo (Nat.le_of_lt hi), units_block f (by omega) hi]
  calc (m + 1) * 2 ^ s * 2 ^ f.fractionBits
      = m * 2 ^ s * 2 ^ f.fractionBits + 2 ^ s * 2 ^ f.fractionBits := by ring
    _ ≤ m * 2 ^ s * 2 ^ f.fractionBits + 2 ^ s * m := by
        exact Nat.add_le_add_left (Nat.mul_le_mul_left _ lo) _
    _ = m * 2 ^ s * (2 ^ f.fractionBits + 1) := by ring

theorem two_pow_fractionBits_le_rankOf (hone : 2 ^ f.fractionBits < f.one) {k : Nat} (hk : 0 < k)
    (h : k ≤ 2 * 2 ^ f.fractionBits) : 2 ^ f.fractionBits < f.rankOf k := by
  apply (units_lt_iff f).mp
  rw [f.units_rankOf h, units_of_le f (by omega)]
  exact Nat.lt_of_lt_of_le hone (Nat.le_mul_of_pos_left _ hk)

/-- A quotient below an integer rounds to a rank below it. -/
theorem nearestRank_lt_rankOf (hf : 0 < f.fractionBits) (hone : 2 ^ f.fractionBits < f.one)
    {a b k : Nat} (ha : a ≤ 2 * 2 ^ f.fractionBits) (hk : k ≤ 2 * 2 ^ f.fractionBits)
    (hb : 0 < b) (h : a < k * b) : f.nearestRank (a * f.one) b < f.rankOf k := by
  refine Nat.lt_of_not_le fun hle => ?_
  have hkpos : 0 < k := by
    rcases Nat.eq_zero_or_pos k with rfl | hkpos
    · simp at h
    · exact hkpos
  have hlow := f.two_pow_fractionBits_le_rankOf hone hkpos hk
  have hunits := f.units_rankOf hk
  -- The midpoint below the nearest rank, and so the one below `k`, is not above the quotient.
  obtain ⟨r, hr⟩ : ∃ r, f.rankOf k = r + 1 := ⟨f.rankOf k - 1, by omega⟩
  obtain ⟨q, hq⟩ : ∃ q, f.nearestRank (a * f.one) b = q + 1 :=
    ⟨f.nearestRank (a * f.one) b - 1, by omega⟩
  obtain ⟨lower, _⟩ := nearestRank_bounds f hf (a * f.one) hb
  have hmid := (lower q hq).1
  rw [hr] at hlow hunits hle
  have hrq : f.units r ≤ f.units q := units_mono f (by omega)
  have hrq' : f.units (r + 1) ≤ f.units (q + 1) := units_mono f (by omega)
  have hspacing := f.units_succ_mul_le (r := r) (by omega)
  generalize 2 ^ f.fractionBits = p at *
  have hbelow : (a + 1) * f.one ≤ f.units (r + 1) * b := by
    calc (a + 1) * f.one ≤ k * b * f.one := Nat.mul_le_mul_right _ h
      _ = f.units (r + 1) * b := by rw [hunits]; ring
  have hlarge : (2 * p + 1) * ((a + 1) * f.one) ≤ (2 * p + 2) * (a * f.one) := by
    calc (2 * p + 1) * ((a + 1) * f.one) ≤ (2 * p + 1) * (f.units (r + 1) * b) :=
          Nat.mul_le_mul_left _ hbelow
      _ = (f.units (r + 1) * p + f.units (r + 1) * (p + 1)) * b := by ring
      _ ≤ (f.units r * (p + 1) + f.units (r + 1) * (p + 1)) * b :=
          Nat.mul_le_mul_right _ (Nat.add_le_add_right hspacing _)
      _ = (p + 1) * ((f.units r + f.units (r + 1)) * b) := by ring
      _ ≤ (p + 1) * ((f.units q + f.units (q + 1)) * b) :=
          Nat.mul_le_mul_left _ (Nat.mul_le_mul_right _ (Nat.add_le_add hrq hrq'))
      _ ≤ (p + 1) * (2 * (a * f.one)) := Nat.mul_le_mul_left _ hmid
      _ = (2 * p + 2) * (a * f.one) := by ring
  have hsmall : (2 * p + 1) * (a + 1) ≤ (2 * p + 2) * a := by
    apply Nat.le_of_mul_le_mul_right _ (Nat.two_pow_pos f.fineness)
    calc (2 * p + 1) * (a + 1) * f.one = (2 * p + 1) * ((a + 1) * f.one) := Nat.mul_assoc ..
      _ ≤ (2 * p + 2) * (a * f.one) := hlarge
      _ = (2 * p + 2) * a * f.one := (Nat.mul_assoc ..).symm
  have hexpand : (2 * p + 1) * (a + 1) + a = (2 * p + 2) * a + (2 * p + 1) := by ring
  omega

theorem nearestRank_le_rankOf (hf : 0 < f.fractionBits) (a : Nat) {b : Nat} (hb : 0 < b) :
    f.nearestRank (a * f.one) b ≤ f.rankOf a := by
  apply f.nearestRank_mono hf hb Nat.one_pos
  exact Nat.mul_le_mul_left _ hb

/-- The integer part of a rounded quotient is the quotient of the integers. -/
theorem units_nearestRank_div (hf : 0 < f.fractionBits) (hone : 2 ^ f.fractionBits < f.one)
    {a b : Nat} (ha : a ≤ 2 * 2 ^ f.fractionBits) (hb : 0 < b) :
    f.units (f.nearestRank (a * f.one) b) / f.one = a / b := by
  have hk : a / b ≤ a := Nat.div_le_self a b
  have hle : a / b * b ≤ a := Nat.div_mul_le_self a b
  apply Nat.div_eq_of_lt_le
  · have hrank : f.rankOf (a / b) ≤ f.nearestRank (a * f.one) b := by
      apply f.le_nearestRank hf hb
      rw [f.units_rankOf (by omega), Nat.mul_right_comm]
      exact Nat.mul_le_mul_right _ hle
    rw [← f.units_rankOf (by omega)]
    exact units_mono f hrank
  · rcases Nat.lt_or_ge (a / b) (2 * 2 ^ f.fractionBits) with h | h
    · have hlt : a < (a / b + 1) * b := Nat.lt_mul_of_div_lt (Nat.lt_succ_self _) hb
      rw [← f.units_rankOf h]
      exact units_strictMono f (f.nearestRank_lt_rankOf hf hone ha h hb hlt)
    · calc f.units (f.nearestRank (a * f.one) b) ≤ f.units (f.rankOf a) :=
            units_mono f (f.nearestRank_le_rankOf hf a hb)
        _ = a * f.one := f.units_rankOf ha
        _ < (a / b + 1) * f.one := Nat.mul_lt_mul_of_pos_right (by omega) (Nat.two_pow_pos _)

end Criteria.Format
