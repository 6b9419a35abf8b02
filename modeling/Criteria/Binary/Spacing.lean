import Criteria.Binary.Format

/-!
How the magnitudes of a format are spaced. Ranks fall into blocks of equal length, the spacing
doubles from block to block, and a greater rank has a greater magnitude.
-/

namespace Criteria.Format
set_option autoImplicit false
variable (f : Format)

theorem units_of_lt {r : Nat} (h : r < 2 ^ f.fractionBits) : f.units r = r := by
  simp [units, h]

/-- Within a block the magnitude is the mantissa times the spacing, and the end of a block is the
start of the next. -/
theorem units_block {m : Nat} (lo : 2 ^ f.fractionBits ≤ m) (hi : m ≤ 2 * 2 ^ f.fractionBits)
    (s : Nat) : f.units (m + s * 2 ^ f.fractionBits) = m * 2 ^ s := by
  have pos : 0 < 2 ^ f.fractionBits := Nat.two_pow_pos _
  have hge : ¬ m + s * 2 ^ f.fractionBits < 2 ^ f.fractionBits := by omega
  rw [units, if_neg hge, Nat.add_mul_div_right _ _ pos, Nat.add_mul_mod_self_right]
  rcases Nat.lt_or_eq_of_le hi with h | h
  · have hdiv : m / 2 ^ f.fractionBits = 1 := Nat.div_eq_of_lt_le (by omega) (by omega)
    have hmod := Nat.div_add_mod m (2 ^ f.fractionBits)
    rw [hdiv, Nat.mul_one] at hmod
    rw [hmod, hdiv, Nat.add_sub_cancel_left]
  · subst h
    rw [Nat.mul_mod_left, Nat.mul_div_cancel _ pos, Nat.add_zero,
      show 2 + s - 1 = s + 1 by omega, Nat.pow_succ, Nat.mul_comm (2 ^ s) 2, ← Nat.mul_assoc,
      Nat.mul_comm (2 ^ f.fractionBits) 2]

theorem exists_block {r : Nat} (h : 2 ^ f.fractionBits ≤ r) :
    ∃ m s, 2 ^ f.fractionBits ≤ m ∧ m < 2 * 2 ^ f.fractionBits ∧
      r = m + s * 2 ^ f.fractionBits := by
  have pos : 0 < 2 ^ f.fractionBits := Nat.two_pow_pos _
  have hk : 1 ≤ r / 2 ^ f.fractionBits := (Nat.one_le_div_iff pos).mpr h
  refine ⟨2 ^ f.fractionBits + r % 2 ^ f.fractionBits, r / 2 ^ f.fractionBits - 1, by omega,
    by have := Nat.mod_lt r pos; omega, ?_⟩
  have hr := Nat.div_add_mod' r (2 ^ f.fractionBits)
  generalize r / 2 ^ f.fractionBits = k at hk hr
  obtain ⟨k, rfl⟩ := Nat.exists_eq_add_of_le' hk
  rw [Nat.add_mul] at hr
  simp only [Nat.add_sub_cancel]
  omega

theorem units_lt_succ (r : Nat) : f.units r < f.units (r + 1) := by
  rcases Nat.lt_or_ge r (2 ^ f.fractionBits) with h | h
  · rw [units_of_lt f h]
    rcases Nat.lt_or_ge (r + 1) (2 ^ f.fractionBits) with h' | h'
    · rw [units_of_lt f h']; omega
    · have := units_block f (m := r + 1) h' (by omega) 0
      simp only [Nat.zero_mul, Nat.add_zero, Nat.pow_zero, Nat.mul_one] at this
      omega
  · obtain ⟨m, s, lo, hi, rfl⟩ := exists_block f h
    rw [units_block f lo (by omega), Nat.add_right_comm, units_block f (by omega) (by omega)]
    exact Nat.mul_lt_mul_of_pos_right (by omega) (Nat.two_pow_pos s)

theorem units_strictMono {a b : Nat} (h : a < b) : f.units a < f.units b := by
  induction h with
  | refl => exact units_lt_succ f a
  | step _ ih => exact Nat.lt_trans ih (units_lt_succ f _)

theorem units_lt_iff {a b : Nat} : f.units a < f.units b ↔ a < b := by
  refine ⟨fun h => Nat.lt_of_not_le fun hba => ?_, units_strictMono f⟩
  rcases Nat.lt_or_eq_of_le hba with hba | rfl
  · exact Nat.lt_asymm h (units_strictMono f hba)
  · exact Nat.lt_irrefl _ h

theorem units_mono {a b : Nat} (h : a ≤ b) : f.units a ≤ f.units b := by
  rcases Nat.lt_or_eq_of_le h with h | rfl
  · exact Nat.le_of_lt (units_strictMono f h)
  · exact Nat.le_refl _

theorem units_inj {a b : Nat} : f.units a = f.units b ↔ a = b := by
  have h₁ := units_lt_iff f (a := a) (b := b)
  have h₂ := units_lt_iff f (a := b) (b := a)
  omega

theorem units_of_le {r : Nat} (h : r ≤ 2 * 2 ^ f.fractionBits) : f.units r = r := by
  rcases Nat.lt_or_ge r (2 ^ f.fractionBits) with lo | lo
  · exact units_of_lt f lo
  · simpa using units_block f lo h 0

end Criteria.Format
