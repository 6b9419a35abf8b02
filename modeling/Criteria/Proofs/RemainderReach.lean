import Criteria.Proofs.FloatCloseness
import Criteria.Proofs.IntegerFloatAgreement
import Criteria.Proofs.ShownNumbers

/-!
# References that no remainder comes close to

A remainder is exact and lesser than the reference, so at best it is the float below it. Beyond 128
that one is further away than the tolerance, and up to 128 it is not. So the operator is met by some
float exactly if the reference is neither zero nor beyond 128, and integers never meet it with an
integer.
-/

namespace Criteria
set_option autoImplicit false

namespace Format
variable (f : Format)

/-- A remainder of magnitudes is itself a magnitude, lesser than the divisor. -/
theorem exists_units_mod (a : Nat) {b : Nat} (hb : f.units b ≠ 0) :
    ∃ r, r < b ∧ f.units r = f.units a % f.units b := by
  have hlt := Nat.mod_lt (f.units a) (Nat.pos_of_ne_zero hb)
  suffices hunits : ∃ r, f.units r = f.units a % f.units b by
    obtain ⟨r, hr⟩ := hunits
    refine ⟨r, ?_, hr⟩
    apply f.units_lt_iff.mp
    rwa [hr]
  rcases Nat.lt_or_ge a b with hab | hab
  · exact ⟨a, (Nat.mod_eq_of_lt (f.units_strictMono hab)).symm⟩
  rcases Nat.lt_or_ge b (2 ^ f.fractionBits) with h | h
  · rw [f.units_of_lt h] at hlt ⊢
    exact ⟨f.units a % b, f.units_of_lt (Nat.lt_trans hlt h)⟩
  · -- The dividend is a multiple of the spacing at the divisor, and so is what remains of it.
    obtain ⟨m, s, lo, hi, rfl⟩ := f.exists_block h
    have hdivisor := f.units_block lo (Nat.le_of_lt hi) s
    have hlarge : 2 ^ (f.fractionBits + s) ≤ f.units a := by
      refine Nat.le_trans ?_ (f.units_mono hab)
      rw [hdivisor, Nat.pow_add]
      exact Nat.mul_le_mul_right _ lo
    obtain ⟨q, hq⟩ := f.two_pow_dvd_units hlarge
    have hrem : f.units a % f.units (m + s * 2 ^ f.fractionBits) = q % m * 2 ^ s := by
      rw [hq, hdivisor, Nat.mul_comm, Nat.mul_mod_mul_right]
    have hm : 0 < m := Nat.lt_of_lt_of_le (Nat.two_pow_pos _) lo
    have hmod := Nat.mod_lt q hm
    rw [hrem]
    exact f.exists_units s (by omega)

/-- Beyond a power of two magnitudes are at least the spacing there apart. -/
theorem units_add_two_pow_le {s a b : Nat} (hab : a < b)
    (hb : 2 ^ (f.fractionBits + s) < f.units b) : f.units a + 2 ^ s ≤ f.units b := by
  obtain ⟨j, hj⟩ := f.two_pow_dvd_units (Nat.le_of_lt hb)
  have hpow : 2 ^ (f.fractionBits + s) = 2 ^ s * 2 ^ f.fractionBits := by
    rw [Nat.pow_add, Nat.mul_comm]
  have step {i : Nat} (h : 2 ^ s * i < 2 ^ s * j) : 2 ^ s * i + 2 ^ s ≤ 2 ^ s * j := by
    have hij := Nat.lt_of_mul_lt_mul_left h
    rw [← Nat.mul_succ]
    exact Nat.mul_le_mul_left _ hij
  rcases Nat.le_total (f.units a) (2 ^ (f.fractionBits + s)) with ha | ha
  · refine Nat.le_trans (Nat.add_le_add_right ha _) ?_
    rw [hj, hpow] at hb ⊢
    exact step hb
  · obtain ⟨i, hi⟩ := f.two_pow_dvd_units ha
    have hunits := f.units_strictMono hab
    rw [hi, hj] at hunits ⊢
    exact step hunits

/-- Up to a power of two neighbouring magnitudes are at most the spacing below it apart. -/
theorem units_succ_le_add_two_pow {s r : Nat} (h : f.units (r + 1) ≤ 2 ^ (f.fractionBits + s + 1)) :
    f.units (r + 1) ≤ f.units r + 2 ^ s := by
  rcases Nat.lt_or_ge r (2 ^ f.fractionBits) with hr | hr
  · rw [f.units_of_lt hr, f.units_of_le (by omega)]
    exact Nat.add_le_add_left (Nat.two_pow_pos s) r
  · obtain ⟨m, t, lo, hi, rfl⟩ := f.exists_block hr
    have hunits := f.units_block lo (Nat.le_of_lt hi) t
    have hnext := f.units_block (m := m + 1) (by omega) hi t
    rw [Nat.add_right_comm] at hnext
    have hts : t ≤ s := by
      have hlow : 2 ^ (f.fractionBits + t) < 2 ^ (f.fractionBits + s + 1) := by
        refine Nat.lt_of_lt_of_le ?_ h
        rw [hnext, Nat.pow_add]
        exact Nat.mul_lt_mul_of_pos_right (by omega) (Nat.two_pow_pos t)
      have := (Nat.pow_lt_pow_iff_right (show 1 < 2 by decide)).mp hlow
      omega
    rw [hnext, hunits, Nat.succ_mul]
    exact Nat.add_le_add_left (Nat.pow_le_pow_right Nat.two_pos hts) _

end Format

namespace Binary

theorem remainder_finite {f : Format} (s t : Bool) (a b : Fin f.top) (hb : f.units b ≠ 0) :
    ∃ r : Fin f.top, r < b ∧ f.units r = f.units a % f.units b ∧
      (finite s a).remainder (finite t b) = finite s r := by
  obtain ⟨r, hr, hunits⟩ := f.exists_units_mod a hb
  have htop := Nat.lt_trans hr b.isLt
  refine ⟨⟨r, htop⟩, hr, hunits, ?_⟩
  have hround := f.nearestRank_units r Nat.one_pos
  rw [Nat.mul_one] at hround
  rw [remainder, if_neg hb, ← hunits, ofUnits, hround, ofRank, dif_pos htop]

/-- A reference that no remainder comes close to: no finite number, zero, or beyond 128. -/
def IsOutOfReach (x : Single) : Prop := x.isFinite = false ∨ x.toRat = 0 ∨ 128 < |x.toRat|

theorem abs_toRat_finite (s : Bool) (r : Fin Format.single.top) :
    |(finite s r : Single).toRat| = Format.single.units r / 2 ^ 149 := by
  rw [toRat_finite, abs_signed s (by positivity), Format.cast_single_one]

/-- Beyond 128 a float and any one of a lesser magnitude are apart by more than the tolerance. -/
theorem le_abs_toRat_sub {s t : Bool} {r b : Fin Format.single.top} (hr : r < b)
    (hb : 128 < |(finite t b : Single).toRat|) :
    1 / 2 ^ 16 ≤ |(finite s r : Single).toRat - (finite t b : Single).toRat| := by
  rw [abs_toRat_finite] at hb
  by_cases hst : s = t
  · have hlarge : 2 ^ (Format.single.fractionBits + 133) < Format.single.units b := by
      rw [lt_div_iff₀ (by positivity)] at hb
      have hcast : ((2 ^ 156 : Nat) : ℚ) < Format.single.units b := by
        rw [Nat.cast_pow, Nat.cast_ofNat]
        linarith
      exact Nat.cast_lt.mp hcast
    have hgap := Format.single.units_add_two_pow_le hr hlarge
    have hgap' : (Format.single.units r + 2 ^ 133 : ℚ) ≤ Format.single.units b := by
      exact_mod_cast hgap
    rw [hst, toRat_finite, toRat_finite, abs_signed_sub, abs_sub_comm, ← sub_div,
      Format.cast_single_one]
    refine le_abs.mpr (.inl ?_)
    rw [le_div_iff₀ (by positivity)]
    linarith
  · rw [toRat_finite, toRat_finite, abs_signed_sub_of_ne hst (by positivity) (by positivity),
      Format.cast_single_one]
    have hnonneg : (0 : ℚ) ≤ Format.single.units r / 2 ^ 149 := by positivity
    linarith

theorem not_isClose_remainder {y : Single} (h : y.IsOutOfReach) (x : Single) :
    (x.remainder y).isClose y = false := by
  rw [Bool.eq_false_iff]
  intro hclose
  obtain ⟨hrem, hy⟩ := isFinite_of_isClose hclose
  obtain ⟨t, b, rfl⟩ := exists_of_isFinite hy
  cases x with
  | nan | infinite => simp [remainder, isFinite] at hrem
  | finite s a =>
    have hb : Format.single.units b ≠ 0 := by
      intro hzero
      simp [remainder, hzero, isFinite] at hrem
    have hlarge : 128 < |(finite t b : Single).toRat| := by
      rcases h with h | h | h
      · simp [isFinite] at h
      · have habs := abs_toRat_finite t b
        rw [h, abs_zero, eq_comm, div_eq_zero_iff, Nat.cast_eq_zero] at habs
        exact absurd (habs.resolve_right (by positivity)) hb
      · exact h
    obtain ⟨r, hr, _, heq⟩ := remainder_finite s t a b hb
    rw [heq] at hclose
    have hnear := ((isClose_iff_isNear _ _).mp hclose).near
    have hfar := le_abs_toRat_sub (s := s) hr hlarge
    linarith

/-- Up to 128 a float and the one below it are apart by less than the tolerance. -/
theorem abs_toRat_sub_le {t : Bool} {r b : Fin Format.single.top} (hb : b.val = r.val + 1)
    (hle : |(finite t b : Single).toRat| ≤ 128) :
    |(finite t r : Single).toRat - (finite t b : Single).toRat| ≤ 1 / 2 ^ 17 := by
  have hsmall : Format.single.units (r.val + 1) ≤ 2 ^ (Format.single.fractionBits + 132 + 1) := by
    rw [abs_toRat_finite, div_le_iff₀ (by positivity), hb] at hle
    have hcast : (Format.single.units (r.val + 1) : ℚ) ≤ ((2 ^ 156 : Nat) : ℚ) := by
      rw [Nat.cast_pow, Nat.cast_ofNat]
      linarith
    exact Nat.cast_le.mp hcast
  have hgap := Format.single.units_succ_le_add_two_pow hsmall
  have hmono := Format.single.units_mono (Nat.le_succ r.val)
  rw [← hb] at hgap
  rw [Nat.succ_eq_add_one, ← hb] at hmono
  have hgap' : (Format.single.units b : ℚ) ≤ Format.single.units r + 2 ^ 132 := by
    exact_mod_cast hgap
  have hmono' : (Format.single.units r : ℚ) ≤ Format.single.units b := Nat.cast_le.mpr hmono
  rw [toRat_finite, toRat_finite, abs_signed_sub, abs_sub_comm, ← sub_div, Format.cast_single_one,
    abs_of_nonneg (div_nonneg (sub_nonneg.mpr hmono') (by positivity)),
    div_le_iff₀ (by positivity)]
  linarith

/-- The float below a reference up to 128 is its own remainder, and close to the reference. -/
theorem exists_isClose_remainder {y : Single} (h : ¬ y.IsOutOfReach) :
    ∃ x : Single, (x.remainder y).isClose y = true := by
  simp only [IsOutOfReach, not_or, Bool.not_eq_false, not_lt] at h
  obtain ⟨hfinite, hne, hle⟩ := h
  obtain ⟨t, b, rfl⟩ := exists_of_isFinite hfinite
  have hb : Format.single.units b ≠ 0 := by
    intro hzero
    rw [toRat_finite, hzero] at hne
    cases t <;> simp [signed] at hne
  obtain ⟨k, hk⟩ : ∃ k, b.val = k + 1 := by
    apply Nat.exists_eq_succ_of_ne_zero
    intro hzero
    rw [hzero, Format.units_zero] at hb
    exact hb rfl
  have hkb : k < b.val := by omega
  let below : Fin Format.single.top := ⟨k, Nat.lt_trans hkb b.isLt⟩
  obtain ⟨r, _, hr, heq⟩ := remainder_finite t t below b hb
  rw [Nat.mod_eq_of_lt (Format.single.units_strictMono hkb), Format.units_inj] at hr
  obtain rfl : r = below := Fin.ext hr
  refine ⟨finite t below, ?_⟩
  rw [heq, isClose_iff_near rfl rfl]
  refine (abs_toRat_sub_le hk hle).trans_lt ?_
  norm_num

theorem IsInteger.toRat_eq {x : Single} {n : Int} (h : x.IsInteger n) : x.toRat = n := by
  have hone : (Format.single.one : ℚ) ≠ 0 := by exact_mod_cast Format.single.one_pos.ne'
  rw [toRat, h.value, Int.cast_mul, Int.cast_natCast, mul_div_cancel_right₀ _ hone]

/-- An integer is out of reach exactly if its float is. -/
theorem ofInt_isOutOfReach_iff (n : Int32) :
    IsOutOfReach (ofInt n.toInt) ↔ n.toInt = 0 ∨ 128 < n.toInt.natAbs := by
  have hlow := Int32.le_toInt n
  have hhigh := Int32.toInt_lt n
  have habs : |(n.toInt : ℚ)| = (n.toInt.natAbs : ℚ) := by rw [Nat.cast_natAbs, Int.cast_abs]
  have hnearest := isNearest_ofInt (f := .single) (by decide)
    (Format.single_rankOf_lt_top (n := n.toInt.natAbs) (by omega))
  simp only [IsOutOfReach, hnearest.finite, Bool.true_eq_false, false_or]
  rcases Nat.le_total n.toInt.natAbs (2 ^ 24) with hsmall | hlarge
  · rw [(isInteger_ofInt hsmall).toRat_eq, habs, Int.cast_eq_zero]
    exact or_congr_right (by exact_mod_cast Iff.rfl)
  · -- A large integer may be rounded, but to nothing that is lesser than two to the 14.
    have hfar : (2 ^ 14 : ℚ) ≤ |(n.toInt : ℚ)| := by
      rw [habs]
      exact_mod_cast Nat.le_trans (show 2 ^ 14 ≤ 2 ^ 24 by decide) hlarge
    have hvalue : (Value.float (ofInt n.toInt)).IsNearest n.toInt := hnearest
    have hround : 2 ^ 14 ≤ |(ofInt n.toInt : Single).toRat| := hvalue.two_pow_le_abs hfar
    constructor
    · intro _
      exact .inr (by omega)
    · intro _
      exact .inr (by linarith)

end Binary

namespace Value

/-- Integers count exactly, and everything else as the float that a range sees. -/
def IsOutOfReach : Value → Prop
  | integer n => n.toInt = 0 ∨ 128 < n.toInt.natAbs
  | v => v.toSingle.IsOutOfReach

theorem toSingle_isOutOfReach_iff (v : Value) : v.toSingle.IsOutOfReach ↔ v.IsOutOfReach := by
  cases v with
  | integer n => exact Binary.ofInt_isOutOfReach_iff n
  | absent | float | boolean | text => rfl

/-- A reference out of reach is the remainder of no input. -/
theorem not_satisfies_remainder {r : Value} (h : r.IsOutOfReach) (v : Value) :
    v.satisfies .remainder r = false := by
  cases hc : isComparable v r with
  | false => exact satisfies_of_not_isComparable hc .remainder
  | true =>
    cases path_of_isComparable hc with
    | integers a b => exact Operator.not_holdsInt_remainder a.toInt b.toInt
    | floats hv hr hfloat =>
      rw [satisfies_floats hv hr hfloat]
      exact Binary.not_isClose_remainder (r.toSingle_isOutOfReach_iff.mpr h) v.toSingle
    | texts | booleans => rfl

theorem exists_satisfies_remainder {r : Value} (hr : r.isNumber = true) (h : ¬ r.IsOutOfReach) :
    ∃ v : Value, v.satisfies .remainder r = true := by
  rw [← toSingle_isOutOfReach_iff] at h
  obtain ⟨x, hx⟩ := Binary.exists_isClose_remainder h
  refine ⟨float x, ?_⟩
  rw [satisfies_floats rfl hr (.inl rfl)]
  exact hx

end Value

theorem Bound.not_admits_remainder {b : Bound} (hop : b.op = .remainder)
    (h : b.value.IsOutOfReach) (x : Single) : b.admits x = false := by
  rw [admits, hop]
  exact Binary.not_isClose_remainder (b.value.toSingle_isOutOfReach_iff.mpr h) x

namespace Criterion

/-- No integer leaves an integer reference as its remainder. A reference that is a number is left by
no input exactly if it is zero, not finite or beyond 128, and a range with such a bound is empty. -/
theorem remainder_empty_iff :
    (∀ a b : Int32, (single .remainder (.integer b)).accepts (.integer a) = false) ∧
    (∀ r : Value, r.isNumber = true →
      ((∀ v, (single .remainder r).accepts v = false) ↔ r.IsOutOfReach)) ∧
    ∀ lower upper b : Bound, b = lower ∨ b = upper → b.op = .remainder → b.value.IsOutOfReach →
      ∀ v, (range lower upper).accepts v = false := by
  refine ⟨?_, ?_, ?_⟩
  · intro a b
    exact Operator.not_holdsInt_remainder a.toInt b.toInt
  · intro r hr
    constructor
    · intro hempty
      by_contra h
      obtain ⟨v, hv⟩ := Value.exists_satisfies_remainder hr h
      exact absurd hv (Bool.eq_false_iff.mp (hempty v))
    · intro h v
      exact Value.not_satisfies_remainder h v
  · rintro lower upper b (rfl | rfl) hop h v
    · simp [accepts, Bound.not_admits_remainder hop h]
    · simp [accepts, Bound.not_admits_remainder hop h]

/-- The integer 128 is left by some input, and the float above it by none; nor is there any in a range
up to infinity that has minus 129 at its other end. -/
theorem remainder_empty_beyond_128 :
    (Value.isNumber (.integer 128) = true ∧ ¬ (Value.integer 128).IsOutOfReach ∧
      ¬ ∀ v, (single .remainder (.integer 128)).accepts v = false) ∧
    (Value.isNumber (.float (.ofRank false 0x43000001)) = true ∧
      (Value.float (.ofRank false 0x43000001)).IsOutOfReach ∧
      ∀ v, (single .remainder (.float (.ofRank false 0x43000001))).accepts v = false) ∧
    ((Value.integer (-129)).IsOutOfReach ∧
      ∀ v, (range ⟨.remainder, .integer (-129)⟩ ⟨.less, .float (.infinite false)⟩).accepts v =
        false) := by
  obtain ⟨_, hsingle, hrange⟩ := remainder_empty_iff
  have hwithin : ¬ (Value.integer 128).IsOutOfReach := by
    rw [Value.IsOutOfReach]
    decide
  have hbeyond : (Value.float (.ofRank false 0x43000001)).IsOutOfReach := by
    refine .inr (.inr ?_)
    have hunits : Format.single.units 0x43000001 = (2 ^ 23 + 1) * 2 ^ 133 := by decide
    rw [Value.toSingle, Binary.toRat_ofRank (by decide), abs_signed _ (by positivity), hunits,
      Format.cast_single_one]
    norm_num
  have hinteger : (Value.integer (-129)).IsOutOfReach := by
    rw [Value.IsOutOfReach]
    decide
  refine ⟨⟨rfl, hwithin, ?_⟩, ⟨rfl, hbeyond, ?_⟩, hinteger, ?_⟩
  · intro hempty
    exact hwithin ((hsingle _ rfl).mp hempty)
  · exact (hsingle _ rfl).mpr hbeyond
  · exact hrange _ _ ⟨.remainder, .integer (-129)⟩ (.inl rfl) rfl hinteger

end Criterion
end Criteria
