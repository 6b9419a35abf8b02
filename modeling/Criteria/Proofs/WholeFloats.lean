import Criteria.Proofs.IntegerRounding
import Criteria.Proofs.Lossless

/-!
# Floats that are integers

The nearest float of an integer is an integer again. Two such floats are close only if they are the
same number, so an operator that compares does on them what it does on their positions.
-/

namespace Criteria
set_option autoImplicit false

namespace Format
variable (f : Format)

/-- From a power of two on, every magnitude is a multiple of the spacing there. -/
theorem two_pow_dvd_units {s r : Nat} (h : 2 ^ (f.fractionBits + s) ≤ f.units r) :
    2 ^ s ∣ f.units r := by
  have hpow : 2 ^ (f.fractionBits + s) = 2 ^ f.fractionBits * 2 ^ s := Nat.pow_add ..
  rcases Nat.lt_or_ge r (2 ^ f.fractionBits) with hr | hr
  · rw [units_of_lt f hr] at h
    have := Nat.le_mul_of_pos_right (2 ^ f.fractionBits) (Nat.two_pow_pos s)
    omega
  · obtain ⟨m, t, lo, hi, rfl⟩ := exists_block f hr
    rw [units_block f lo (Nat.le_of_lt hi)] at h ⊢
    have hst : s ≤ t := by
      refine Nat.le_of_not_lt fun hts => Nat.not_lt.mpr h ?_
      calc m * 2 ^ t < 2 * 2 ^ f.fractionBits * 2 ^ t :=
            Nat.mul_lt_mul_of_pos_right hi (Nat.two_pow_pos t)
        _ = 2 ^ f.fractionBits * 2 ^ (t + 1) := by
            rw [Nat.pow_succ]
            ac_rfl
        _ ≤ 2 ^ f.fractionBits * 2 ^ s :=
            Nat.mul_le_mul_left _ (Nat.pow_le_pow_right (by decide) hts)
        _ = 2 ^ (f.fractionBits + s) := hpow.symm
    exact Nat.dvd_trans (Nat.pow_dvd_pow 2 hst) (Nat.dvd_mul_left _ m)

theorem one_dvd_units_rankOf (hf : 0 < f.fractionBits) (n : Nat) :
    f.one ∣ f.units (f.rankOf n) := by
  rcases Nat.le_total n (2 * 2 ^ f.fractionBits) with h | h
  · rw [f.units_rankOf h]
    exact Nat.dvd_mul_left f.one n
  · apply f.two_pow_dvd_units
    calc 2 ^ (f.fractionBits + f.fineness) = 2 ^ f.fractionBits * f.one := Nat.pow_add ..
      _ ≤ 2 * 2 ^ f.fractionBits * f.one := Nat.mul_le_mul_right _ (by omega)
      _ = f.units (f.rankOf (2 * 2 ^ f.fractionBits)) := (f.units_rankOf (Nat.le_refl _)).symm
      _ ≤ f.units (f.rankOf n) := f.units_mono (f.rankOf_mono hf h)

end Format

namespace Binary

section Finite
variable {f : Format} {x y : Binary f}

theorem isFinite_ofRank {s : Bool} {r : Nat} (h : r < f.top) :
    (ofRank s r : Binary f).isFinite = true := by
  rw [ofRank, dif_pos h]
  rfl

theorem signedUnits_ofRank {s : Bool} {r : Nat} (h : r < f.top) :
    (ofRank s r : Binary f).signedUnits = if s then -(f.units r : Int) else f.units r := by
  rw [ofRank, dif_pos h]
  cases s <;> rfl

theorem exists_position_of_ne_nan (h : x ≠ .nan) : ∃ i, x.position? = some i := by
  cases x with
  | nan => exact absurd rfl h
  | infinite s => cases s <;> exact ⟨_, rfl⟩
  | finite s r => cases s <;> exact ⟨_, rfl⟩

theorem exists_position (h : x.isFinite = true) : ∃ i, x.position? = some i := by
  apply exists_position_of_ne_nan
  rintro rfl
  exact Bool.false_ne_true h

/-- Finite data are ordered by their exact values. -/
theorem signedUnits_lt_iff (hx : x.isFinite = true) (hy : y.isFinite = true) {i j : Int}
    (hi : x.position? = some i) (hj : y.position? = some j) :
    x.signedUnits < y.signedUnits ↔ i < j := by
  obtain ⟨s, r, rfl⟩ := exists_of_isFinite hx
  obtain ⟨t, q, rfl⟩ := exists_of_isFinite hy
  have hrq := f.units_lt_iff (a := r) (b := q)
  have hqr := f.units_lt_iff (a := q) (b := r)
  have hr := f.units_lt_iff (a := 0) (b := r)
  have hq := f.units_lt_iff (a := 0) (b := q)
  rw [f.units_zero] at hr hq
  cases s <;> cases t <;> simp only [position?, Option.some.injEq] at hi hj <;>
    subst hi hj <;> simp only [signedUnits] <;> omega

theorem signedUnits_eq_iff (hx : x.isFinite = true) (hy : y.isFinite = true) {i j : Int}
    (hi : x.position? = some i) (hj : y.position? = some j) :
    x.signedUnits = y.signedUnits ↔ i = j := by
  have h := signedUnits_lt_iff hx hy hi hj
  have h' := signedUnits_lt_iff hy hx hj hi
  omega

end Finite

/-- A finite float without a fraction. -/
structure IsWhole (x : Single) : Prop where
  finite : x.isFinite = true
  dvd : (Format.single.one : Int) ∣ x.signedUnits

theorem isWhole_ofInt {n : Int} (h : Format.single.rankOf n.natAbs < Format.single.top) :
    (ofInt n : Single).IsWhole where
  finite := isFinite_ofRank h
  dvd := by
    have hd := Int.natCast_dvd_natCast.mpr
      (Format.single.one_dvd_units_rankOf (by decide) n.natAbs)
    rw [ofInt_eq_ofRank, signedUnits_ofRank h]
    split
    · exact Int.dvd_neg.mpr hd
    · exact hd

theorem distance_of_isFinite {x y : Single} (hx : x.isFinite = true) (hy : y.isFinite = true) :
    x.distance y = ofUnits false (x.signedUnits - y.signedUnits).natAbs 1 := by
  obtain ⟨s, r, rfl⟩ := exists_of_isFinite hx
  obtain ⟨t, q, rfl⟩ := exists_of_isFinite hy
  rfl

/-- A distance of one or more is no tolerance. -/
theorem not_lt_tolerance {num : Nat} (h : Format.single.one ≤ num) :
    (ofUnits false num 1 : Single).lt tolerance = false := by
  have hr : 0x3727C5AC ≤ Format.single.nearestRank num 1 := by
    apply Format.single.le_nearestRank (by decide) Nat.one_pos
    refine Nat.le_trans ?_ h
    decide
  have htop : 0x3727C5AC ≤ Format.single.top := by decide
  rw [Bool.eq_false_iff, ne_eq, ofUnits, tolerance,
    lt_iff (position?_ofRank _ _) (position?_ofRank _ _)]
  simp only [Format.signedRank, Bool.false_eq_true, if_false]
  omega

theorem IsWhole.isClose_iff {x y : Single} (hx : x.IsWhole) (hy : y.IsWhole) :
    x.isClose y = true ↔ x.signedUnits = y.signedUnits := by
  rw [isClose, distance_of_isFinite hx.finite hy.finite]
  constructor
  · intro h
    by_contra hne
    have hd := Int.dvd_sub hx.dvd hy.dvd
    have hle : Format.single.one ≤ (x.signedUnits - y.signedUnits).natAbs := by
      apply Nat.le_of_dvd (by omega)
      exact Int.ofNat_dvd_left.mp hd
    rw [not_lt_tolerance hle] at h
    exact Bool.false_ne_true h
  · intro h
    have hself := isClose_self hx.finite
    rw [isClose, distance_of_isFinite hx.finite hx.finite] at hself
    rwa [← h]

theorem isClose_ofInt_iff (a : Int) {b : Int}
    (hb : Format.single.rankOf b.natAbs < Format.single.top) :
    (ofInt a : Single).isClose (ofInt b) = true ↔
      Format.single.place a = Format.single.place b := by
  have hy := isWhole_ofInt hb
  by_cases ha : Format.single.rankOf a.natAbs < Format.single.top
  · have hx := isWhole_ofInt ha
    rw [hx.isClose_iff hy,
      signedUnits_eq_iff hx.finite hy.finite (position?_ofInt a) (position?_ofInt b)]
  · constructor
    · intro h
      have hfin := (isFinite_of_isClose h).1
      rw [ofInt_eq_ofRank, ofRank_eq_infinite (Nat.le_of_not_lt ha)] at hfin
      simp [isFinite] at hfin
    · intro h
      simp only [Format.place, Format.signedRank] at h
      split at h <;> split at h <;> omega

end Binary

namespace Operator

/-- The operators that compare the input with the reference itself. -/
def isComparison : Operator → Bool
  | quotient | remainder => false
  | _ => true

/-- A comparison depends on the order alone. -/
theorem holdsInt_congr {op : Operator} (hop : op.isComparison = true) {i j k l : Int}
    (hlt : i < j ↔ k < l) (heq : i = j ↔ k = l) : op.holdsInt i j = op.holdsInt k l := by
  rw [Bool.eq_iff_iff]
  cases op with
  | quotient | remainder => simp [isComparison] at hop
  | equal => simpa [holdsInt] using heq
  | notEqual => simpa [holdsInt] using not_congr heq
  | less => simpa [holdsInt] using hlt
  | lessEqual | greater | greaterEqual =>
    simp only [holdsInt, decide_eq_true_eq]
    omega

/-- Where close floats are equal ones, a comparison of floats is one of positions. -/
theorem holdsFloat_eq_holdsInt {op : Operator} (hop : op.isComparison = true) {x y : Single}
    {i j : Int} (hx : x.position? = some i) (hy : y.position? = some j)
    (hclose : x.isClose y = true ↔ i = j) : op.holdsFloat x y = op.holdsInt i j := by
  rw [Bool.eq_iff_iff]
  cases op with
  | quotient | remainder => simp [isComparison] at hop
  | equal => simpa [holdsFloat, holdsInt] using hclose
  | notEqual =>
    have := not_congr hclose
    simpa [holdsFloat, holdsInt] using this
  | less => simpa [holdsFloat, holdsInt] using Binary.lt_iff hx hy
  | lessEqual => simpa [holdsFloat, holdsInt] using Binary.le_iff hx hy
  | greater => simpa [holdsFloat, holdsInt] using Binary.lt_iff hy hx
  | greaterEqual => simpa [holdsFloat, holdsInt] using Binary.le_iff hy hx

/-- Compared as floats, integers are compared by their places. -/
theorem holdsFloat_ofInt {op : Operator} (hop : op.isComparison = true) (a : Int) {b : Int}
    (hb : Format.single.rankOf b.natAbs < Format.single.top) :
    op.holdsFloat (.ofInt a) (.ofInt b) =
      op.holdsInt (Format.single.place a) (Format.single.place b) :=
  holdsFloat_eq_holdsInt hop (Binary.position?_ofInt a) (Binary.position?_ofInt b)
    (Binary.isClose_ofInt_iff a hb)

end Operator
end Criteria
