import Mathlib.Algebra.Order.Field.Basic
import Mathlib.Algebra.Order.Field.Rat
import Mathlib.Tactic.Linarith
import Criteria.Proofs.WholeFloats

/-!
# The datum nearest to a number

Rounding gives a datum to which no other finite one of the format is preferred: none is nearer, and
of two that are equally near the even one is taken. This determines the exact value of the result.
-/

namespace Criteria
set_option autoImplicit false

namespace Format
variable (f : Format)

theorem one_pos : 0 < f.one := Nat.two_pow_pos _

theorem cast_single_one : (single.one : ℚ) = 2 ^ 149 := by
  have h : single.one = 2 ^ 149 := rfl
  rw [h]
  exact_mod_cast rfl

section
variable (hf : 0 < f.fractionBits) (num : Nat) {den : Nat} (pos : 0 < den)
include hf pos

/-- A magnitude below the nearest one is not on the same side of the midpoint as the quotient. -/
theorem two_mul_quotient_ge {t : Nat} (h : t < f.nearestRank num den) :
    (f.units t + f.units (f.nearestRank num den) : ℚ) ≤ 2 * (num / den) ∧
    ((f.units t + f.units (f.nearestRank num den) : ℚ) = 2 * (num / den) →
      f.nearestRank num den % 2 = 0) := by
  obtain ⟨k, hk⟩ : ∃ k, f.nearestRank num den = k + 1 := ⟨f.nearestRank num den - 1, by omega⟩
  obtain ⟨⟨hle, heven⟩, _⟩ := And.imp_left (· k hk) (f.nearestRank_bounds hf num pos)
  have hpos : (0 : ℚ) < den := by exact_mod_cast pos
  have htk : (f.units t : ℚ) ≤ f.units k := by exact_mod_cast f.units_mono (show t ≤ k by omega)
  have hmid : (f.units k + f.units (k + 1) : ℚ) ≤ 2 * (num / den) := by
    rw [← mul_div_assoc, le_div_iff₀ hpos]
    exact_mod_cast hle
  rw [hk]
  refine ⟨by linarith, fun heq => heven ?_⟩
  have hmid' : (f.units k + f.units (k + 1) : ℚ) = 2 * (num / den) := by linarith
  rw [← mul_div_assoc, eq_div_iff hpos.ne'] at hmid'
  exact_mod_cast hmid'

theorem two_mul_quotient_le {t : Nat} (h : f.nearestRank num den < t) :
    2 * (num / den) ≤ (f.units (f.nearestRank num den) + f.units t : ℚ) ∧
    (2 * (num / den) = (f.units (f.nearestRank num den) + f.units t : ℚ) →
      f.nearestRank num den % 2 = 0) := by
  obtain ⟨_, hle, heven⟩ := f.nearestRank_bounds hf num pos
  generalize f.nearestRank num den = r at h hle heven
  have hpos : (0 : ℚ) < den := by exact_mod_cast pos
  have hrt : (f.units (r + 1) : ℚ) ≤ f.units t := by
    exact_mod_cast f.units_mono (show r + 1 ≤ t by omega)
  have hmid : 2 * (num / den) ≤ (f.units r + f.units (r + 1) : ℚ) := by
    rw [← mul_div_assoc, div_le_iff₀ hpos]
    exact_mod_cast hle
  refine ⟨by linarith, fun heq => heven ?_⟩
  have hmid' : 2 * (num / den) = (f.units r + f.units (r + 1) : ℚ) := by linarith
  rw [← mul_div_assoc, div_eq_iff hpos.ne'] at hmid'
  exact_mod_cast hmid'

/-- No magnitude is nearer to a quotient than the nearest one, and as near only if that is even. -/
theorem abs_units_nearestRank_sub_le (t : Nat) :
    |(f.units (f.nearestRank num den) : ℚ) - num / den| ≤ |(f.units t : ℚ) - num / den| ∧
    (|(f.units t : ℚ) - num / den| = |(f.units (f.nearestRank num den) : ℚ) - num / den| →
      t ≠ f.nearestRank num den → f.nearestRank num den % 2 = 0) := by
  rcases Nat.lt_trichotomy t (f.nearestRank num den) with h | rfl | h
  · obtain ⟨hge, heven⟩ := f.two_mul_quotient_ge hf num pos h
    have hlt : (f.units t : ℚ) < f.units (f.nearestRank num den) := by
      exact_mod_cast f.units_strictMono h
    generalize (num / den : ℚ) = q at *
    rw [abs_of_neg (show (f.units t : ℚ) - q < 0 by linarith)]
    refine ⟨abs_le.mpr ⟨by linarith, by linarith⟩, fun heq _ => heven ?_⟩
    rcases abs_choice ((f.units (f.nearestRank num den) : ℚ) - q) with habs | habs <;>
      rw [habs] at heq <;> linarith
  · exact ⟨le_refl _, fun _ hne => absurd rfl hne⟩
  · obtain ⟨hle, heven⟩ := f.two_mul_quotient_le hf num pos h
    have hlt : (f.units (f.nearestRank num den) : ℚ) < f.units t := by
      exact_mod_cast f.units_strictMono h
    generalize (num / den : ℚ) = q at *
    rw [abs_of_pos (show 0 < (f.units t : ℚ) - q by linarith)]
    refine ⟨abs_le.mpr ⟨by linarith, by linarith⟩, fun heq _ => heven ?_⟩
    rcases abs_choice ((f.units (f.nearestRank num den) : ℚ) - q) with habs | habs <;>
      rw [habs] at heq <;> linarith

end

end Format

/-- A magnitude with a sign. -/
def signed (negative : Bool) (q : ℚ) : ℚ := if negative then -q else q

theorem signed_natAbs (n : Int) : signed (n < 0) n.natAbs = n := by
  rw [signed, Nat.cast_natAbs]
  by_cases h : n < 0
  · rw [if_pos (decide_eq_true h), abs_of_neg h, Int.cast_neg, neg_neg]
  · rw [if_neg (by simpa using h), abs_of_nonneg (Int.not_lt.mp h)]

theorem signed_div (s : Bool) (p q : ℚ) : signed s (p / q) = signed s p / q := by
  cases s
  · rfl
  · rw [signed, signed, if_pos rfl, if_pos rfl, neg_div]

theorem abs_signed_sub (s : Bool) (p q : ℚ) : |signed s p - signed s q| = |p - q| := by
  cases s
  · rfl
  · rw [signed, signed, if_pos rfl, if_pos rfl, neg_sub_neg, abs_sub_comm]

theorem abs_signed_sub_of_ne {s t : Bool} (h : t ≠ s) {p q : ℚ} (hp : 0 ≤ p) (hq : 0 ≤ q) :
    |signed t p - signed s q| = p + q := by
  have hsum : |p + q| = p + q := abs_of_nonneg (add_nonneg hp hq)
  cases s with
  | false =>
    rw [Bool.eq_true_of_not_eq_false h, signed, signed, if_pos rfl, if_neg Bool.false_ne_true,
      ← neg_add', abs_neg, hsum]
  | true =>
    rw [Bool.eq_false_of_not_eq_true h, signed, signed, if_pos rfl, if_neg Bool.false_ne_true,
      sub_neg_eq_add, hsum]

theorem abs_signed (s : Bool) {q : ℚ} (h : 0 ≤ q) : |signed s q| = q := by
  cases s
  · exact abs_of_nonneg h
  · rw [signed, if_pos rfl, abs_neg, abs_of_nonneg h]

namespace Binary
variable {f : Format}

/-- The exact value of a finite datum. -/
def toRat (x : Binary f) : ℚ := x.signedUnits / f.one

/-- Whether the last bit of a finite datum is zero. -/
def isEven : Binary f → Bool
  | .finite _ r => r.val % 2 == 0
  | _ => false

/-- A finite datum to which no other finite one is preferred as the rounding of a number, ties going
to the even one. -/
structure IsNearest (x : Binary f) (q : ℚ) : Prop where
  finite : x.isFinite = true
  nearest : ∀ y : Binary f, y.isFinite = true → |x.toRat - q| ≤ |y.toRat - q|
  even : ∀ y : Binary f, y.isFinite = true → |y.toRat - q| = |x.toRat - q| → y.toRat ≠ x.toRat →
    x.isEven = true

theorem toRat_finite (s : Bool) (r : Fin f.top) :
    (finite s r : Binary f).toRat = signed s (f.units r / f.one) := by
  cases s
  · simp [toRat, signedUnits, signed]
  · simp [toRat, signedUnits, signed, neg_div]

theorem toRat_ofRank {s : Bool} {r : Nat} (h : r < f.top) :
    (ofRank s r : Binary f).toRat = signed s (f.units r / f.one) := by
  rw [ofRank, dif_pos h, toRat_finite]

/-- Rounding to a finite datum gives the nearest one. -/
theorem isNearest_ofUnits (hf : 0 < f.fractionBits) (s : Bool) (num : Nat) {den : Nat}
    (pos : 0 < den) (h : f.nearestRank num den < f.top) :
    (ofUnits s num den : Binary f).IsNearest (signed s (num / den / f.one)) := by
  have hone : (0 : ℚ) < f.one := by exact_mod_cast f.one_pos
  have hquotient : (0 : ℚ) ≤ num / den := by positivity
  have hbest := f.abs_units_nearestRank_sub_le hf num pos
  rw [ofUnits, ofRank, dif_pos h]
  generalize f.nearestRank num den = r at *
  -- The distances in least magnitudes.
  have hdist (t : Bool) (b : Fin f.top) :
      |(finite t b : Binary f).toRat - signed s (num / den / f.one)| =
        (if t = s then |(f.units b : ℚ) - num / den| else f.units b + num / den) / f.one := by
    rw [toRat_finite]
    split
    · next ht => rw [ht, abs_signed_sub, ← sub_div, abs_div, abs_of_pos hone]
    · next ht => rw [abs_signed_sub_of_ne ht (by positivity) (by positivity), ← add_div]
  have hzero := hbest 0
  rw [f.units_zero, Nat.cast_zero, zero_sub, abs_neg, abs_of_nonneg hquotient] at hzero
  refine ⟨rfl, ?_, ?_⟩
  · intro y hy
    obtain ⟨t, b, rfl⟩ := exists_of_isFinite hy
    rw [hdist, hdist, if_pos rfl]
    refine div_le_div_of_nonneg_right ?_ hone.le
    split
    · exact (hbest b).1
    · linarith [hzero.1, show (0 : ℚ) ≤ f.units b by positivity]
  · intro y hy heq hne
    obtain ⟨t, b, rfl⟩ := exists_of_isFinite hy
    rw [toRat_finite, toRat_finite] at hne
    rw [hdist, hdist, if_pos rfl, div_left_inj' hone.ne'] at heq
    rw [isEven, beq_iff_eq]
    split at heq
    · next ht =>
      refine (hbest b).2 heq fun hb => hne ?_
      rw [ht, hb]
    · next ht =>
      -- Across zero only zero itself can be as near.
      have hb : (f.units b : ℚ) = 0 := by
        have hnonneg : (0 : ℚ) ≤ f.units b := by positivity
        linarith [hzero.1]
      refine hzero.2 (by linarith) fun hr => hne ?_
      subst hr
      simp [hb, signed]

theorem isNearest_ofInt (hf : 0 < f.fractionBits) {n : Int} (h : f.rankOf n.natAbs < f.top) :
    (ofInt n : Binary f).IsNearest n := by
  have hone : (f.one : ℚ) ≠ 0 := by exact_mod_cast f.one_pos.ne'
  have hnearest := isNearest_ofUnits hf (n < 0) (n.natAbs * f.one) Nat.one_pos h
  rwa [Nat.cast_one, div_one, Nat.cast_mul, mul_div_cancel_right₀ _ hone, signed_natAbs] at hnearest

theorem toRat_lt_iff {x y : Binary f} (hx : x.isFinite = true) (hy : y.isFinite = true) {i j : Int}
    (hi : x.position? = some i) (hj : y.position? = some j) : x.toRat < y.toRat ↔ i < j := by
  have hone : (0 : ℚ) < f.one := by exact_mod_cast f.one_pos
  rw [toRat, toRat, div_lt_div_iff_of_pos_right hone, Int.cast_lt, signedUnits_lt_iff hx hy hi hj]

/-- Even data are no neighbours. -/
theorem exists_between {x y : Binary f} (hx : x.isEven = true) (hy : y.isEven = true)
    (h : x.toRat < y.toRat) :
    ∃ z : Binary f, z.isFinite = true ∧ x.toRat < z.toRat ∧ z.toRat < y.toRat := by
  obtain ⟨s, r, rfl⟩ : ∃ s r, x = finite s r := by cases x <;> simp_all [isEven]
  obtain ⟨t, q, rfl⟩ : ∃ s r, y = finite s r := by cases y <;> simp_all [isEven]
  obtain ⟨i, hi⟩ := exists_position (x := (finite s r : Binary f)) rfl
  obtain ⟨j, hj⟩ := exists_position (x := (finite t q : Binary f)) rfl
  have hij := (toRat_lt_iff rfl rfl hi hj).mp h
  have hr := r.isLt
  have hq := q.isLt
  rw [isEven, beq_iff_eq] at hx hy
  have hbetween : i + 1 < j ∧ (i + 1).natAbs < f.top := by
    cases s <;> cases t <;> simp only [position?, Option.some.injEq] at hi hj <;> omega
  have hz : (ofRank (i + 1 < 0) (i + 1).natAbs : Binary f).position? = some (i + 1) := by
    rw [position?_ofRank, Format.signedRank, Nat.min_eq_left hbetween.2.le]
    simp only [decide_eq_true_eq]
    congr 1
    split <;> omega
  have hfin := isFinite_ofRank (s := decide (i + 1 < 0)) hbetween.2
  refine ⟨_, hfin, ?_, ?_⟩
  · exact (toRat_lt_iff rfl hfin hi hz).mpr (by omega)
  · exact (toRat_lt_iff hfin rfl hz hj).mpr hbetween.1

theorem IsNearest.toRat_not_lt {x y : Binary f} {q : ℚ} (hx : x.IsNearest q) (hy : y.IsNearest q) :
    ¬ x.toRat < y.toRat := by
  intro h
  have heq : |y.toRat - q| = |x.toRat - q| :=
    le_antisymm (hy.nearest x hx.finite) (hx.nearest y hy.finite)
  obtain ⟨z, hz, hxz, hzy⟩ := exists_between (hx.even y hy.finite heq h.ne')
    (hy.even x hx.finite heq.symm h.ne) h
  -- The number is halfway, so what lies between is nearer.
  have hmid : y.toRat - q = q - x.toRat := by
    rcases abs_eq_abs.mp heq with h' | h' <;> linarith
  have hnearest := hx.nearest z hz
  rw [abs_of_neg (show x.toRat - q < 0 by linarith)] at hnearest
  have hcloser : |z.toRat - q| < -(x.toRat - q) := abs_lt.mpr ⟨by linarith, by linarith⟩
  exact absurd hnearest (not_le.mpr hcloser)

/-- The exact value of the nearest datum is determined. -/
theorem IsNearest.toRat_eq {x y : Binary f} {q : ℚ} (hx : x.IsNearest q) (hy : y.IsNearest q) :
    x.toRat = y.toRat :=
  le_antisymm (not_lt.mp (hy.toRat_not_lt hx)) (not_lt.mp (hx.toRat_not_lt hy))

/-- A number that is a datum's value is the value of the nearest one. -/
theorem IsNearest.toRat_eq_of_exact {x y : Binary f} {q : ℚ} (hx : x.IsNearest q)
    (hy : y.isFinite = true) (h : y.toRat = q) : x.toRat = q := by
  have hnear := hx.nearest y hy
  rw [h, sub_self, abs_zero] at hnear
  exact sub_eq_zero.mp (abs_nonpos_iff.mp hnear)

end Binary
end Criteria
