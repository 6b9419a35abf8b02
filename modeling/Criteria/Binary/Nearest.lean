import Criteria.Binary.Rounding
import Criteria.Binary.Spacing

/-!
Rounding is to nearest. A quotient lies between the midpoints around its nearest magnitude, a
magnitude of the format is nearest to itself, and rounding keeps the order of quotients.
-/

namespace Criteria
set_option autoImplicit false

/-- The result is within half a divisor of the quotient, and exactly half only if it is even. -/
theorem divEven_bounds (num : Nat) {den : Nat} (pos : 0 < den) :
    (2 * (divEven num den * den) ≤ 2 * num + den ∧
      (2 * (divEven num den * den) = 2 * num + den → divEven num den % 2 = 0)) ∧
    (2 * num ≤ 2 * (divEven num den * den) + den ∧
      (2 * num = 2 * (divEven num den * den) + den → divEven num den % 2 = 0)) := by
  have h := Nat.div_add_mod' num den
  have hr := Nat.mod_lt num pos
  unfold divEven
  generalize num / den = q at h ⊢
  generalize num % den = r at h hr ⊢
  subst h
  simp only
  split
  · omega
  split
  · rw [Nat.add_mul, Nat.one_mul]; omega
  · rcases Nat.mod_two_eq_zero_or_one q with hq | hq
    · rw [hq, Nat.add_zero]; omega
    · rw [hq, Nat.add_mul, Nat.one_mul]; omega

theorem divEven_le {num den k : Nat} (pos : 0 < den) (h : num ≤ k * den) : divEven num den ≤ k := by
  refine Nat.le_of_not_lt fun hk => ?_
  obtain ⟨⟨hb, _⟩, _⟩ := divEven_bounds num pos
  have := Nat.mul_le_mul_right den hk
  rw [Nat.succ_mul] at this
  omega

theorem le_divEven {num den k : Nat} (pos : 0 < den) (h : k * den ≤ num) : k ≤ divEven num den := by
  refine Nat.le_of_not_lt fun hk => ?_
  obtain ⟨_, hb, _⟩ := divEven_bounds num pos
  have := Nat.mul_le_mul_right den hk
  rw [Nat.succ_mul] at this
  omega

theorem divEven_mul (k : Nat) {den : Nat} (pos : 0 < den) : divEven (k * den) den = k :=
  Nat.le_antisymm (divEven_le pos (Nat.le_refl _)) (le_divEven pos (Nat.le_refl _))

namespace Format
variable (f : Format)

theorem doublings_bounds (num : Nat) {den : Nat} (pos : 0 < den) :
    num < 2 * 2 ^ f.fractionBits * (den * 2 ^ f.doublings num den) ∧
    (f.doublings num den = 0 ∨
      2 ^ f.fractionBits * (den * 2 ^ f.doublings num den) ≤ num) := by
  have lo : num / den * den ≤ num := Nat.div_mul_le_self num den
  have hi : num < (num / den + 1) * den := Nat.lt_mul_of_div_lt (Nat.lt_succ_self _) pos
  unfold doublings
  generalize num / den = t at lo hi ⊢
  have ht : t < 2 ^ (t.log2 + 1) := Nat.lt_log2_self
  rcases Nat.le_total t.log2 f.fractionBits with h | h
  · rw [Nat.sub_eq_zero_of_le h]
    have hp : 2 ^ (t.log2 + 1) ≤ 2 ^ (f.fractionBits + 1) :=
      Nat.pow_le_pow_right (by omega) (by omega)
    rw [Nat.pow_succ 2 f.fractionBits, Nat.mul_comm _ 2] at hp
    refine ⟨Nat.lt_of_lt_of_le hi ?_, .inl rfl⟩
    rw [Nat.pow_zero, Nat.mul_one]
    exact Nat.mul_le_mul_right den (by omega)
  · obtain ⟨s, hs⟩ := Nat.exists_eq_add_of_le h
    rw [hs, Nat.add_sub_cancel_left]
    have hpow : 2 ^ (f.fractionBits + s) = 2 ^ f.fractionBits * 2 ^ s := Nat.pow_add ..
    constructor
    · refine Nat.lt_of_lt_of_le hi ?_
      rw [hs, Nat.pow_succ, hpow, Nat.mul_comm _ 2] at ht
      have := Nat.mul_le_mul_right den (show t + 1 ≤ _ from ht)
      refine Nat.le_trans this (Nat.le_of_eq ?_)
      ac_rfl
    · rcases Nat.eq_zero_or_pos s with rfl | hpos
      · exact .inl rfl
      · right
        have hne : t ≠ 0 := by rintro rfl; simp at hs; omega
        have := Nat.log2_self_le hne
        rw [hs, hpow] at this
        refine Nat.le_trans (Nat.le_of_eq ?_) (Nat.le_trans (Nat.mul_le_mul_right den this) lo)
        ac_rfl

theorem doublings_units_of_lt {r : Nat} (h : r < 2 ^ f.fractionBits) {den : Nat} (pos : 0 < den) :
    f.doublings (r * den) den = 0 := by
  rw [doublings, Nat.mul_div_cancel _ pos]
  rcases Nat.eq_zero_or_pos r with rfl | hr
  · simp
  · have := (Nat.log2_lt (k := f.fractionBits) (by omega)).mpr h
    omega

theorem doublings_block {m : Nat} (lo : 2 ^ f.fractionBits ≤ m) (hi : m < 2 * 2 ^ f.fractionBits)
    (s : Nat) {den : Nat} (pos : 0 < den) : f.doublings (m * 2 ^ s * den) den = s := by
  have hm : 0 < m := Nat.lt_of_lt_of_le (Nat.two_pow_pos _) lo
  have hs : 0 < 2 ^ s := Nat.two_pow_pos s
  have hlog : (m * 2 ^ s).log2 = f.fractionBits + s := by
    refine (Nat.log2_eq_iff (Nat.ne_of_gt (Nat.mul_pos hm hs))).mpr ⟨?_, ?_⟩
    · rw [Nat.pow_add]
      exact Nat.mul_le_mul_right _ lo
    · rw [Nat.add_right_comm, Nat.pow_add, Nat.pow_succ, Nat.mul_comm _ 2]
      exact Nat.mul_lt_mul_of_pos_right hi hs
  rw [doublings, Nat.mul_div_cancel _ pos, hlog, Nat.add_sub_cancel_left]

theorem nearestRank_units (r : Nat) {den : Nat} (pos : 0 < den) :
    f.nearestRank (f.units r * den) den = r := by
  rw [nearestRank]
  rcases Nat.lt_or_ge r (2 ^ f.fractionBits) with h | h
  · rw [units_of_lt f h, doublings_units_of_lt f h pos]
    simpa using divEven_mul r pos
  · obtain ⟨m, s, lo, hi, rfl⟩ := exists_block f h
    rw [units_block f lo (by omega), doublings_block f lo hi s pos, Nat.mul_assoc m,
      Nat.mul_comm (2 ^ s) den, divEven_mul m (Nat.mul_pos pos (Nat.two_pow_pos s))]

theorem nearestRank_mantissa (num : Nat) {den : Nat} (pos : 0 < den) :
    ∃ m s, f.nearestRank num den = m + s * 2 ^ f.fractionBits ∧
      m = divEven num (den * 2 ^ s) ∧ m ≤ 2 * 2 ^ f.fractionBits ∧
      (s = 0 ∨ 2 ^ f.fractionBits ≤ m ∧ 2 ^ f.fractionBits * (den * 2 ^ s) ≤ num) := by
  obtain ⟨hi, lo⟩ := doublings_bounds f num pos
  have hpos : 0 < den * 2 ^ f.doublings num den := Nat.mul_pos pos (Nat.two_pow_pos _)
  refine ⟨_, _, rfl, rfl, divEven_le hpos (Nat.le_of_lt hi), ?_⟩
  exact lo.imp_right fun lo => ⟨le_divEven hpos lo, lo⟩

theorem units_mantissa {m s : Nat} (hi : m ≤ 2 * 2 ^ f.fractionBits)
    (lo : s = 0 ∨ 2 ^ f.fractionBits ≤ m) : f.units (m + s * 2 ^ f.fractionBits) = m * 2 ^ s := by
  rcases lo with rfl | lo
  · simpa using units_of_le f hi
  · exact units_block f lo hi s

theorem le_units_mantissa_succ {m s : Nat} (hi : m ≤ 2 * 2 ^ f.fractionBits)
    (lo : s = 0 ∨ 2 ^ f.fractionBits ≤ m) :
    (m + 1) * 2 ^ s ≤ f.units (m + s * 2 ^ f.fractionBits + 1) := by
  rw [Nat.add_right_comm]
  rcases Nat.lt_or_eq_of_le hi with h | rfl
  · exact Nat.le_of_eq (units_mantissa f h (lo.imp_right fun lo => by omega)).symm
  · have pos : 0 < 2 ^ f.fractionBits := Nat.two_pow_pos _
    have := units_block f (m := 2 ^ f.fractionBits + 1) (by omega) (by omega) (s + 1)
    have e := Nat.add_one_mul s (2 ^ f.fractionBits)
    rw [show 2 * 2 ^ f.fractionBits + 1 + s * 2 ^ f.fractionBits =
      2 ^ f.fractionBits + 1 + (s + 1) * 2 ^ f.fractionBits by omega, this,
      Nat.pow_succ, Nat.mul_comm (2 ^ s) 2, ← Nat.mul_assoc]
    exact Nat.mul_le_mul_right _ (by omega)

/-- The rank below a mantissa is one spacing lower, or nearer at the start of a block. -/
theorem units_pred {m s k : Nat} (hi : m ≤ 2 * 2 ^ f.fractionBits)
    (lo : s = 0 ∨ 2 ^ f.fractionBits ≤ m) (hk : m + s * 2 ^ f.fractionBits = k + 1) :
    f.units k + 2 ^ s = m * 2 ^ s ∨
      m = 2 ^ f.fractionBits ∧ s ≠ 0 ∧ f.units k < m * 2 ^ s := by
  by_cases start : m = 2 ^ f.fractionBits ∧ s ≠ 0
  · refine .inr ⟨start.1, start.2, ?_⟩
    have := units_lt_succ f k
    rwa [← hk, units_mantissa f hi lo] at this
  · left
    have hm : 0 < m := by
      rcases lo with rfl | lo
      · omega
      · exact Nat.lt_of_lt_of_le (Nat.two_pow_pos _) lo
    obtain ⟨m, rfl⟩ := Nat.exists_eq_add_of_lt hm
    rw [Nat.zero_add] at *
    obtain rfl : k = m + s * 2 ^ f.fractionBits := by omega
    rw [units_mantissa f (by omega) (by omega), Nat.succ_mul]

/-- A quotient lies between the midpoints around its nearest magnitude, and on a midpoint only if
the rank is even. -/
theorem nearestRank_bounds (hf : 0 < f.fractionBits) (num : Nat) {den : Nat} (pos : 0 < den) :
    (∀ k, f.nearestRank num den = k + 1 →
      (f.units k + f.units (k + 1)) * den ≤ 2 * num ∧
      ((f.units k + f.units (k + 1)) * den = 2 * num → (k + 1) % 2 = 0)) ∧
    (2 * num ≤ (f.units (f.nearestRank num den) + f.units (f.nearestRank num den + 1)) * den ∧
      (2 * num = (f.units (f.nearestRank num den) + f.units (f.nearestRank num den + 1)) * den →
        f.nearestRank num den % 2 = 0)) := by
  obtain ⟨m, s, hr, hm, hi, lo⟩ := nearestRank_mantissa f num pos
  have lo' := lo.imp_right And.left
  have hD : 0 < den * 2 ^ s := Nat.mul_pos pos (Nat.two_pow_pos s)
  have hb := divEven_bounds num hD
  rw [← hm] at hb
  have hu := units_mantissa f hi lo'
  have hparity : (m + s * 2 ^ f.fractionBits) % 2 = m % 2 := by
    obtain ⟨p, hp⟩ := Nat.exists_eq_add_of_lt hf
    rw [hp, Nat.zero_add, Nat.pow_succ, ← Nat.mul_assoc, Nat.add_mul_mod_self_right]
  have hmul : m * 2 ^ s * den = m * (den * 2 ^ s) := by ac_rfl
  rw [hr, hparity, hu]
  constructor
  · intro k hk
    rw [← hk, hparity, hu]
    rcases units_pred f hi lo' hk with h | ⟨h, hs, h'⟩
    · have e : (f.units k + m * 2 ^ s) * den + den * 2 ^ s = 2 * (m * (den * 2 ^ s)) := by
        rw [← hmul, ← h, Nat.add_mul, Nat.add_mul, Nat.mul_comm den]
        omega
      omega
    · have lo := (lo.resolve_left hs).2
      rw [← h] at lo
      have : (f.units k + m * 2 ^ s) * den < 2 * (m * (den * 2 ^ s)) := by
        rw [← hmul, Nat.add_mul]
        have := Nat.mul_lt_mul_of_pos_right h' pos
        omega
      omega
  · have h := le_units_mantissa_succ f hi lo'
    have e : 2 * (m * (den * 2 ^ s)) + den * 2 ^ s ≤
        (m * 2 ^ s + f.units (m + s * 2 ^ f.fractionBits + 1)) * den := by
      have := Nat.mul_le_mul_right den h
      rw [Nat.succ_mul, Nat.add_mul, hmul, Nat.mul_comm (2 ^ s)] at this
      rw [Nat.add_mul, hmul]
      omega
    omega

theorem nearestRank_mono (hf : 0 < f.fractionBits) {a b c d : Nat} (hb : 0 < b) (hd : 0 < d)
    (h : a * d ≤ c * b) : f.nearestRank a b ≤ f.nearestRank c d := by
  refine Nat.le_of_not_lt fun hlt => ?_
  obtain ⟨k, hk⟩ := Nat.exists_eq_add_of_lt hlt
  obtain ⟨lower, _⟩ := nearestRank_bounds f hf a hb
  obtain ⟨_, upper⟩ := nearestRank_bounds f hf c hd
  generalize f.nearestRank c d = r at *
  obtain ⟨l, lt⟩ := lower (r + k) hk
  obtain ⟨u, ut⟩ := upper
  have hX : r + k ≠ r → f.units r + f.units (r + 1) < f.units (r + k) + f.units (r + k + 1) := by
    intro hk
    have h₁ := units_strictMono f (show r < r + k by omega)
    have h₂ := units_strictMono f (show r + 1 < r + k + 1 by omega)
    omega
  generalize hx : f.units (r + k) + f.units (r + k + 1) = x at *
  generalize hy : f.units r + f.units (r + 1) = y at *
  have hyx : y ≤ x := by
    by_cases hk : r + k = r
    · rw [hk] at hx; omega
    · exact Nat.le_of_lt (hX hk)
  have h₁ : x * b * d ≤ 2 * a * d := Nat.mul_le_mul_right d l
  have h₂ : 2 * c * b ≤ y * d * b := Nat.mul_le_mul_right b u
  have h₃ : y * d * b ≤ x * d * b := Nat.mul_le_mul_right b (Nat.mul_le_mul_right d hyx)
  have h₄ : 2 * a * d ≤ 2 * c * b := by
    rw [Nat.mul_assoc, Nat.mul_assoc]; exact Nat.mul_le_mul_left 2 h
  have e : x * d * b = x * b * d := Nat.mul_right_comm ..
  have ea : x * b = 2 * a := Nat.eq_of_mul_eq_mul_right hd (by omega)
  have ec : 2 * c = y * d := Nat.eq_of_mul_eq_mul_right hb (by omega)
  have exy : y * (d * b) = x * (d * b) := by rw [← Nat.mul_assoc, ← Nat.mul_assoc]; omega
  have exy := Nat.eq_of_mul_eq_mul_right (Nat.mul_pos hd hb) exy
  have hk : r + k = r := by
    by_cases hk : r + k = r
    · exact hk
    · have := hX hk; omega
  have := lt ea
  have := ut ec
  omega

end Format
end Criteria
