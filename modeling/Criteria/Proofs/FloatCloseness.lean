import Mathlib.Tactic.NormNum
import Criteria.Proofs.NearestData
import Criteria.Proofs.RoundingTwice
import Criteria.Proofs.SingleLaws

/-!
# When floats count as equal

A difference is rounded before it is compared with the tolerance. The tolerance is an even float, so
the midpoint below it is rounded up to it, and only what is still less remains below. For the exact
difference the bound is therefore that midpoint, half a last place below the tolerance.
-/

namespace Criteria
set_option autoImplicit false

namespace Format
variable {f : Format} {num den : Nat}

/-- What rounds at most to an odd rank lies below the midpoint above it, as the midpoint itself goes
on to the even rank. -/
theorem nearestRank_le_iff_of_odd (hf : 0 < f.fractionBits) (pos : 0 < den) {k : Nat}
    (hodd : k % 2 = 1) : f.nearestRank num den ≤ k ↔ 2 * num < f.twiceMid k * den := by
  obtain ⟨above, hle, heven⟩ := roundsTo_nearestRank hf num pos
  generalize f.nearestRank num den = r at *
  constructor
  · intro hr
    rcases Nat.lt_or_eq_of_le hr with hr | rfl
    · apply Nat.lt_of_le_of_lt hle
      exact Nat.mul_lt_mul_of_pos_right (f.twiceMid_strictMono hr) pos
    · -- On the midpoint itself only an even rank is taken.
      apply Nat.lt_of_le_of_ne hle
      intro htie
      have := heven htie
      omega
  · intro hlt
    apply Nat.le_of_not_lt
    intro hr
    obtain ⟨j, rfl⟩ := Nat.exists_eq_succ_of_ne_zero (Nat.ne_zero_of_lt hr)
    have hge := (above j rfl).1
    have hmid : f.twiceMid k ≤ f.twiceMid j := by
      rcases Nat.lt_or_eq_of_le (Nat.le_of_lt_succ hr) with hkj | rfl
      · exact Nat.le_of_lt (f.twiceMid_strictMono hkj)
      · exact Nat.le_refl _
    have := Nat.mul_le_mul_right den hmid
    omega

end Format

namespace Binary

section Units
variable {f : Format}

/-- The distance from a finite datum to the next one further from zero. -/
def ulp : Binary f → ℚ
  | finite _ r => (f.units (r + 1) - f.units r) / f.one
  | _ => 0

theorem abs_toRat_sub (x y : Binary f) :
    |x.toRat - y.toRat| = (x.signedUnits - y.signedUnits).natAbs / f.one := by
  have hone : (0 : ℚ) < f.one := by exact_mod_cast f.one_pos
  rw [toRat, toRat, ← sub_div, abs_div, abs_of_pos hone, Nat.cast_natAbs, Int.cast_abs,
    Int.cast_sub]

/-- A quotient rounds below an even magnitude exactly if it is less than the midpoint under it. -/
theorem ofUnits_lt_iff (hf : 0 < f.fractionBits) (num : Nat) {den k : Nat} (pos : 0 < den)
    (hodd : k % 2 = 1) (htop : k < f.top) :
    (ofUnits false num den : Binary f).lt (ofRank false (k + 1)) = true ↔
      2 * num < f.twiceMid k * den := by
  rw [ofUnits, lt_iff (position?_ofRank _ _) (position?_ofRank _ _),
    ← Format.nearestRank_le_iff_of_odd hf pos hodd]
  simp only [Format.signedRank, Bool.false_eq_true, if_false]
  omega

end Units

theorem units_tolerance : Format.single.units 0x3727C5AC = 10995116 * 2 ^ 109 := by decide

theorem twiceMid_below_tolerance : Format.single.twiceMid 0x3727C5AB = 21990231 * 2 ^ 109 := by
  decide

theorem tolerance_toRat : tolerance.toRat = 10995116 / 2 ^ 40 := by
  have htop : 0x3727C5AC < Format.single.top := by decide
  rw [tolerance, toRat_ofRank htop, signed, if_neg Bool.false_ne_true, units_tolerance,
    Format.cast_single_one]
  norm_num

theorem tolerance_ulp : tolerance.ulp = 1 / 2 ^ 40 := by
  have htop : 0x3727C5AC < Format.single.top := by decide
  have hnext : Format.single.units (0x3727C5AC + 1) = 10995117 * 2 ^ 109 := by decide
  rw [tolerance, ofRank, dif_pos htop, ulp, hnext, units_tolerance, Format.cast_single_one]
  norm_num

/-- Two finite floats whose exact values are less apart than the midpoint below the tolerance. -/
structure IsNear (x y : Single) : Prop where
  finite : x.isFinite = true ∧ y.isFinite = true
  near : |x.toRat - y.toRat| < 21990231 / 2 ^ 41

theorem isClose_iff_near {x y : Single} (hx : x.isFinite = true) (hy : y.isFinite = true) :
    x.isClose y = true ↔ |x.toRat - y.toRat| < 21990231 / 2 ^ 41 := by
  have hround := ofUnits_lt_iff (f := .single) (by decide) (x.signedUnits - y.signedUnits).natAbs
    Nat.one_pos (k := 0x3727C5AB) (by decide) (by decide)
  have hscale : (21990231 / 2 ^ 41 * 2 ^ 149 : ℚ) = (21990231 * 2 ^ 108 : Nat) := by norm_num
  rw [Nat.mul_one, twiceMid_below_tolerance] at hround
  rw [isClose, distance_of_isFinite hx hy, abs_toRat_sub, Format.cast_single_one,
    div_lt_iff₀ (by positivity), hscale, Nat.cast_lt]
  apply hround.trans
  omega

theorem isClose_iff_isNear (x y : Single) : x.isClose y = true ↔ x.IsNear y := by
  constructor
  · intro h
    obtain ⟨hx, hy⟩ := isFinite_of_isClose h
    exact ⟨⟨hx, hy⟩, (isClose_iff_near hx hy).mp h⟩
  · rintro ⟨⟨hx, hy⟩, hnear⟩
    exact (isClose_iff_near hx hy).mpr hnear

theorem IsNear.lt_tolerance {x y : Single} (h : x.IsNear y) :
    |x.toRat - y.toRat| < tolerance.toRat := by
  have hbound : (21990231 / 2 ^ 41 : ℚ) < 10995116 / 2 ^ 40 := by norm_num
  rw [tolerance_toRat]
  exact h.near.trans hbound

/-- On a tie the difference goes up to the tolerance. With the next float it is less. -/
example : Binary.isClose (ofRank false 0x37000000) (ofRank true 0x361F16AE) = false ∧
    Binary.isClose (ofRank false 0x37000000) (ofRank true 0x361F16AD) = true := by decide

end Binary

namespace Criterion

/-- Floats are equal exactly if they are finite and their exact values are less apart than the
tolerance less half its last place, and else not equal; none are equal that are apart by the
tolerance. The same bound tells when values that are floats agree, and when an equality accepts a
number if it or the reference is a float. -/
theorem float_equality_iff_isNear :
    (tolerance.toRat = 10995116 / 2 ^ 40 ∧
      (21990231 / 2 ^ 41 : ℚ) = tolerance.toRat - tolerance.ulp / 2) ∧
    (∀ x y : Single, Operator.equal.holdsFloat x y = true ↔ x.IsNear y) ∧
    (∀ x y : Single, Operator.notEqual.holdsFloat x y = true ↔ ¬ x.IsNear y) ∧
    (∀ x y : Single, tolerance.toRat ≤ |x.toRat - y.toRat| →
      Operator.equal.holdsFloat x y = false) ∧
    (∀ x y : Single, (Value.float x).agrees (.float y) = true ↔ x.IsNear y) ∧
    ∀ r v : Value, v.isNumber = true ∧ r.isNumber = true → v.kind = .float ∨ r.kind = .float →
      ((single .equal r).accepts v = true ↔ v.toSingle.IsNear r.toSingle) ∧
      ((single .notEqual r).accepts v = true ↔ ¬ v.toSingle.IsNear r.toSingle) := by
  have hbound : (21990231 / 2 ^ 41 : ℚ) = tolerance.toRat - tolerance.ulp / 2 := by
    rw [Binary.tolerance_toRat, Binary.tolerance_ulp]
    norm_num
  have hequal (x y : Single) : Operator.equal.holdsFloat x y = true ↔ x.IsNear y :=
    Binary.isClose_iff_isNear x y
  have hnotEqual (x y : Single) : Operator.notEqual.holdsFloat x y = true ↔ ¬ x.IsNear y := by
    rw [← hequal]
    simp [Operator.holdsFloat]
  refine ⟨⟨Binary.tolerance_toRat, hbound⟩, hequal, hnotEqual, ?_, Binary.isClose_iff_isNear, ?_⟩
  · intro x y hfar
    rw [Bool.eq_false_iff, ne_eq, hequal]
    intro hnear
    exact absurd hfar (not_le.mpr hnear.lt_tolerance)
  · intro r v hnumbers hfloat
    obtain ⟨hv, hr⟩ := hnumbers
    rw [accepts, accepts, Value.satisfies_floats hv hr hfloat, Value.satisfies_floats hv hr hfloat]
    exact ⟨hequal _ _, hnotEqual _ _⟩

/-- The tolerance against zero, and the integer one against the 83rd float above it. -/
theorem one_isNear_float :
    (tolerance.toRat ≤ |tolerance.toRat - (Binary.zero false : Single).toRat| ∧
      Operator.equal.holdsFloat tolerance (.zero false) = false) ∧
    ((Value.integer 1).isNumber = true ∧ (Value.float (.ofRank false 0x3F800053)).isNumber = true) ∧
    ((Value.integer 1).kind = .float ∨ (Value.float (.ofRank false 0x3F800053)).kind = .float) ∧
    (Value.integer 1).toSingle.IsNear (.ofRank false 0x3F800053) := by
  obtain ⟨_, _, _, hfar, _, hvalues⟩ := float_equality_iff_isNear
  have hzero : (Binary.zero false : Single).toRat = 0 := by
    rw [Binary.zero, Binary.toRat_ofRank (by decide), Format.units_zero]
    simp [signed]
  have hdistance : tolerance.toRat ≤ |tolerance.toRat - (Binary.zero false : Single).toRat| := by
    rw [hzero, sub_zero]
    exact le_abs_self _
  have hequal := (hvalues (.float (.ofRank false 0x3F800053)) (.integer 1) ⟨rfl, rfl⟩ (.inr rfl)).1
  exact ⟨⟨hdistance, hfar _ _ hdistance⟩, ⟨rfl, rfl⟩, .inr rfl, hequal.mp (by decide)⟩

end Criterion
end Criteria
