import Criteria.Criterion.Accepts
import Criteria.Proofs.QuotientRounding
import Criteria.Proofs.WholeFloats

/-!
# Small integers compared as floats

Integers of at most two to the 24 are floats. On them every operator gives the same verdict over the
floats as over the integers, the quotient of a negative reference apart: rounding never takes a
quotient to the next integer, and remainders are exact.
-/

namespace Criteria
set_option autoImplicit false

namespace Binary

/-- A float whose exact value is an integer. Zero is the value of two floats. -/
structure IsInteger (x : Single) (n : Int) : Prop where
  finite : x.isFinite = true
  value : x.signedUnits = n * Format.single.one

theorem isInteger_ofRank (s : Bool) {m : Nat} (h : m ≤ 2 ^ 24) :
    IsInteger (ofRank s (Format.single.rankOf m)) (if s then -(m : Int) else m) := by
  have htop := Format.single_rankOf_lt_top (n := m) (by omega)
  have hunits := Format.single.units_rankOf (n := m) h
  refine ⟨isFinite_ofRank htop, ?_⟩
  rw [signedUnits_ofRank htop, hunits]
  cases s <;> simp

theorem isInteger_ofInt {n : Int} (h : n.natAbs ≤ 2 ^ 24) : IsInteger (ofInt n) n := by
  have hn := isInteger_ofRank (n < 0) h
  have hsign : (if decide (n < 0) = true then -(n.natAbs : Int) else n.natAbs) = n := by
    simp only [decide_eq_true_eq]
    split <;> omega
  rw [hsign] at hn
  exact hn

namespace IsInteger
variable {x y : Single} {a b : Int}

theorem isWhole (h : x.IsInteger a) : x.IsWhole where
  finite := h.finite
  dvd := by
    rw [h.value]
    exact Int.dvd_mul_left a Format.single.one

theorem value_lt_iff (hx : x.IsInteger a) (hy : y.IsInteger b) :
    x.signedUnits < y.signedUnits ↔ a < b := by
  rw [hx.value, hy.value]
  exact Int.mul_lt_mul_right (by decide)

theorem isClose_iff (hx : x.IsInteger a) (hy : y.IsInteger b) : x.isClose y = true ↔ a = b := by
  have hlt := hx.value_lt_iff hy
  have hlt' := hy.value_lt_iff hx
  rw [hx.isWhole.isClose_iff hy.isWhole]
  omega

theorem eq_finite (h : x.IsInteger a) : ∃ s r, x = .finite s r ∧
    Format.single.units r = a.natAbs * Format.single.one ∧ (if s then a ≤ 0 else 0 ≤ a) := by
  have hone : (0 : Int) < Format.single.one := by decide
  obtain ⟨hfin, hvalue⟩ := h
  obtain ⟨s, r, rfl⟩ := exists_of_isFinite hfin
  have habs := congrArg Int.natAbs hvalue
  rw [Int.natAbs_mul, Int.natAbs_natCast] at habs
  refine ⟨s, r, rfl, ?_, ?_⟩
  · cases s <;> simpa [signedUnits] using habs
  · cases s with
    | false =>
      have hnonneg : 0 ≤ a * Format.single.one := by
        rw [← hvalue]
        exact Int.natCast_nonneg _
      exact Int.nonneg_of_mul_nonneg_left hnonneg hone
    | true =>
      have hnonneg : 0 ≤ -a * Format.single.one := by
        rw [Int.neg_mul, ← hvalue, signedUnits, Int.neg_neg]
        exact Int.natCast_nonneg _
      exact Int.neg_nonneg.mp (Int.nonneg_of_mul_nonneg_left hnonneg hone)

theorem holdsFloat_comparison (hx : x.IsInteger a) (hy : y.IsInteger b) {op : Operator}
    (hop : op.isComparison = true) : op.holdsFloat x y = op.holdsInt a b := by
  obtain ⟨i, hi⟩ := exists_position hx.finite
  obtain ⟨j, hj⟩ := exists_position hy.finite
  have hlt := signedUnits_lt_iff hx.finite hy.finite hi hj
  have heq := signedUnits_eq_iff hx.finite hy.finite hi hj
  have hclose : x.isClose y = true ↔ i = j := (hx.isWhole.isClose_iff hy.isWhole).trans heq
  rw [Operator.holdsFloat_eq_holdsInt hop hi hj hclose]
  apply Operator.holdsInt_congr hop
  · rw [← hlt, hx.value_lt_iff hy]
  · rw [← hclose, hx.isClose_iff hy]

theorem not_isClose_of_not_isFinite (hx : x.isFinite = false) : x.isClose y = false := by
  rw [Bool.eq_false_iff]
  intro h
  exact Bool.eq_false_iff.mp hx (isFinite_of_isClose h).1

/-- A remainder is less than the reference and so never the reference itself. -/
theorem not_holdsFloat_remainder (hx : x.IsInteger a) (hy : y.IsInteger b)
    (hb : b.natAbs ≤ 2 ^ 24) : Operator.remainder.holdsFloat x y = false := by
  obtain ⟨s, r, rfl, hr, _⟩ := hx.eq_finite
  obtain ⟨t, q, rfl, hq, _⟩ := hy.eq_finite
  change Binary.isClose (if Format.single.units q = 0 then nan else
    ofUnits s (Format.single.units r % Format.single.units q) 1) _ = false
  split
  · exact not_isClose_of_not_isFinite rfl
  · next hne =>
    have hpos : 0 < b.natAbs := by
      refine Nat.pos_of_ne_zero fun h => hne ?_
      rw [hq, h, Nat.zero_mul]
    have hlt := Nat.mod_lt a.natAbs hpos
    rw [hr, hq, Nat.mul_mod_mul_right]
    have hrem := isInteger_ofRank s (m := a.natAbs % b.natAbs) (by omega)
    rw [Bool.eq_false_iff]
    intro hclose
    have heq := (hrem.isClose_iff hy).mp hclose
    split at heq <;> omega

theorem floor_ofRank (s : Bool) {r : Nat} (h : r < Format.single.top) :
    (ofRank s r : Single).floor = ofRank s (Format.single.rankOf
      (if s then (Format.single.units r + (Format.single.one - 1)) / Format.single.one
        else Format.single.units r / Format.single.one)) := by
  rw [ofRank, dif_pos h]
  cases s <;> simp only [floor, ofUnits, Format.rankOf, if_true, Bool.false_eq_true, if_false]

/-- The quotient by a positive integer, rounded to a float. -/
theorem quotient_eq_ofRank (hx : x.IsInteger a) (hy : y.IsInteger b) (hb : 0 < b) :
    ∃ s, x.quotient y =
        ofRank s (Format.single.nearestRank (a.natAbs * Format.single.one) b.natAbs) ∧
      (if s then a ≤ 0 else 0 ≤ a) := by
  have hone : 0 < Format.single.one := Nat.two_pow_pos _
  have hpos : 0 < b.natAbs := by omega
  obtain ⟨s, r, rfl, hr, hs⟩ := hx.eq_finite
  obtain ⟨t, q, rfl, hq, ht⟩ := hy.eq_finite
  obtain rfl : t = false := by
    cases t with
    | false => rfl
    | true => simp only [if_true] at ht; omega
  refine ⟨s, ?_, hs⟩
  have hne : Format.single.units q ≠ 0 := by
    rw [hq]
    exact Nat.ne_of_gt (Nat.mul_pos hpos hone)
  have hrank : Format.single.nearestRank (Format.single.units r * Format.single.one)
      (Format.single.units q) =
      Format.single.nearestRank (a.natAbs * Format.single.one) b.natAbs := by
    rw [hr, hq]
    apply Format.single.nearestRank_congr (by decide) (Nat.mul_pos hpos hone) hpos
    ac_rfl
  rw [quotient, if_neg hne, ofUnits, hrank, Bool.bne_false]

/-- Rounded down, the quotient of a small integer by a positive one is the quotient of the integers,
or like this it is not positive. -/
theorem floor_quotient (hx : x.IsInteger a) (hy : y.IsInteger b) (ha : a.natAbs ≤ 2 ^ 24)
    (hb : 0 < b) :
    ∃ n, (x.quotient y).floor.IsInteger n ∧ (n = a.tdiv b ∨ n ≤ 0 ∧ a.tdiv b ≤ 0) := by
  have hf : 0 < Format.single.fractionBits := by decide
  have hone : 0 < Format.single.one := Nat.two_pow_pos _
  have hpos : 0 < b.natAbs := by omega
  obtain ⟨s, hquotient, hs⟩ := hx.quotient_eq_ofRank hy hb
  have hle := Format.single.nearestRank_le_rankOf hf a.natAbs hpos
  have htop := Nat.lt_of_le_of_lt hle (Format.single_rankOf_lt_top (by omega))
  rw [hquotient, floor_ofRank s htop]
  cases s with
  | false =>
    refine ⟨a.tdiv b, ?_, .inl rfl⟩
    simp only [Bool.false_eq_true, if_false] at hs ⊢
    have hquot : a.natAbs / b.natAbs ≤ a.natAbs := Nat.div_le_self _ _
    rw [Format.single.units_nearestRank_div hf (by decide) ha hpos]
    have hn := isInteger_ofRank false (m := a.natAbs / b.natAbs) (by omega)
    rwa [if_neg Bool.false_ne_true, Int.ofNat_tdiv, Int.natAbs_of_nonneg hs,
      Int.natAbs_of_nonneg (by omega)] at hn
  | true =>
    simp only [if_true] at hs ⊢
    have hceil : (Format.single.units (Format.single.nearestRank
        (a.natAbs * Format.single.one) b.natAbs) + (Format.single.one - 1)) / Format.single.one ≤
        a.natAbs := by
      have hunits := Format.single.units_mono hle
      rw [Format.single.units_rankOf ha] at hunits
      refine Nat.le_of_lt_succ (Nat.div_lt_of_lt_mul ?_)
      rw [Nat.mul_succ, Nat.mul_comm Format.single.one]
      omega
    refine ⟨_, isInteger_ofRank true (by omega), .inr ⟨?_, ?_⟩⟩
    · rw [if_pos rfl]
      exact Int.neg_nonpos_of_nonneg (Int.natCast_nonneg _)
    · have hneg : 0 ≤ (-a).tdiv b := Int.tdiv_nonneg (by omega) (by omega)
      rw [Int.neg_tdiv] at hneg
      omega

theorem holdsFloat_quotient (hx : x.IsInteger a) (hy : y.IsInteger b) (ha : a.natAbs ≤ 2 ^ 24)
    (hb : 0 ≤ b) : Operator.quotient.holdsFloat x y = Operator.quotient.holdsInt a b := by
  rcases Int.lt_or_eq_of_le hb with hb | rfl
  · obtain ⟨n, hn, hdiv⟩ := hx.floor_quotient hy ha hb
    have hclose := hn.isClose_iff hy
    rw [Bool.eq_iff_iff]
    simp only [Operator.holdsFloat, Operator.holdsInt, hclose, Bool.and_eq_true, bne_iff_ne,
      beq_iff_eq]
    omega
  · obtain ⟨s, r, rfl, hr, _⟩ := hx.eq_finite
    obtain ⟨t, q, rfl, hq, _⟩ := hy.eq_finite
    have hzero : Format.single.units q = 0 := by simpa using hq
    have hinfinite :
        ((Binary.finite s r : Single).quotient (.finite t q)).floor.isFinite = false := by
      rw [Binary.quotient, if_pos hzero]
      split <;> rfl
    exact not_isClose_of_not_isFinite hinfinite

end IsInteger
end Binary

namespace Operator

/-- No remainder is the reference itself. -/
theorem not_holdsInt_remainder (a b : Int) : remainder.holdsInt a b = false := by
  rw [Bool.eq_false_iff]
  intro h
  simp only [holdsInt, Bool.and_eq_true, bne_iff_ne, beq_iff_eq] at h
  obtain ⟨hb, hrem⟩ := h
  have hlt := Nat.mod_lt a.natAbs (Nat.pos_of_ne_zero (Int.natAbs_ne_zero.mpr hb))
  rw [← Int.natAbs_tmod, hrem] at hlt
  exact Nat.lt_irrefl _ hlt

variable {a b : Int} {x y : Single}

/-- On small integers the verdict over the integers is the one over floats. -/
theorem holdsInt_eq_holdsFloat {op : Operator} (hx : x.IsInteger a) (hy : y.IsInteger b)
    (ha : a.natAbs ≤ 2 ^ 24) (hb : b.natAbs ≤ 2 ^ 24) (hop : op = quotient → 0 ≤ b) :
    op.holdsInt a b = op.holdsFloat x y := by
  cases op with
  | quotient => exact (hx.holdsFloat_quotient hy ha (hop rfl)).symm
  | remainder => rw [not_holdsInt_remainder, hx.not_holdsFloat_remainder hy hb]
  | lessEqual | greaterEqual | less | greater | equal | notEqual =>
    exact (hx.holdsFloat_comparison hy rfl).symm

end Operator

namespace Criterion

/-- Small 32-bit integers are compared alike on both paths. So it does not matter whether a
reference is written as an integer or as a float of the same value, and a range around such integers
is the conjunction of its two sides. -/
theorem integers_agree_with_floats (op : Operator) (a b : Int32) (ha : a.toInt.natAbs ≤ 2 ^ 24)
    (hb : b.toInt.natAbs ≤ 2 ^ 24) (hop : op = .quotient → 0 ≤ b.toInt) :
    op.holdsInt a.toInt b.toInt = op.holdsFloat (.ofInt a.toInt) (.ofInt b.toInt) ∧
    (∀ x y : Single, x.IsInteger a.toInt → y.IsInteger b.toInt →
      (single op (.integer b)).accepts (.integer a) = (single op (.float y)).accepts (.integer a) ∧
      (single op (.integer b)).accepts (.float x) = (single op (.float y)).accepts (.float x)) ∧
    ∀ (op' : Operator) (b' : Int32), b'.toInt.natAbs ≤ 2 ^ 24 → (op' = .quotient → 0 ≤ b'.toInt) →
      (range ⟨op, .integer b⟩ ⟨op', .integer b'⟩).accepts (.integer a) =
        ((single op (.integer b)).accepts (.integer a) &&
          (single op' (.integer b')).accepts (.integer a)) := by
  have hagree {op : Operator} {b : Int32} {x y : Single} (hx : x.IsInteger a.toInt)
      (hy : y.IsInteger b.toInt) (hb : b.toInt.natAbs ≤ 2 ^ 24)
      (hop : op = .quotient → 0 ≤ b.toInt) : op.holdsInt a.toInt b.toInt = op.holdsFloat x y :=
    Operator.holdsInt_eq_holdsFloat hx hy ha hb hop
  have hpaths {op : Operator} {b : Int32} (hb : b.toInt.natAbs ≤ 2 ^ 24)
      (hop : op = .quotient → 0 ≤ b.toInt) :
      op.holdsInt a.toInt b.toInt = op.holdsFloat (.ofInt a.toInt) (.ofInt b.toInt) :=
    hagree (Binary.isInteger_ofInt ha) (Binary.isInteger_ofInt hb) hb hop
  refine ⟨hpaths hb hop, ?_, ?_⟩
  · intro x y hx hy
    constructor
    · exact hagree (Binary.isInteger_ofInt ha) hy hb hop
    · have hinteger := hagree hx (Binary.isInteger_ofInt hb) hb hop
      exact hinteger.symm.trans (hagree hx hy hb hop)
  · intro op' b' hb' hop'
    simp only [accepts, Bound.admits, Value.satisfies, Value.toSingle, hpaths hb hop,
      hpaths hb' hop']
    rfl

/-- The greatest square within the bound, divided by its root. -/
theorem square_agrees_with_floats :
    ((16777216 : Int32).toInt.natAbs ≤ 2 ^ 24 ∧ (4096 : Int32).toInt.natAbs ≤ 2 ^ 24 ∧
      0 ≤ (4096 : Int32).toInt ∧ Binary.IsInteger (.ofInt 16777216) (16777216 : Int32).toInt ∧
      Binary.IsInteger (.ofInt 4096) (4096 : Int32).toInt) ∧
    Operator.quotient.holdsInt 16777216 4096 =
      Operator.quotient.holdsFloat (.ofInt 16777216) (.ofInt 4096) ∧
    (single .quotient (.integer 4096)).accepts (.integer 16777216) =
      (single .quotient (.float (.ofInt 4096))).accepts (.integer 16777216) ∧
    (single .quotient (.integer 4096)).accepts (.float (.ofInt 16777216)) =
      (single .quotient (.float (.ofInt 4096))).accepts (.float (.ofInt 16777216)) ∧
    (range ⟨.quotient, .integer 4096⟩ ⟨.lessEqual, .integer 16777216⟩).accepts (.integer 16777216) =
      ((single .quotient (.integer 4096)).accepts (.integer 16777216) &&
        (single .lessEqual (.integer 16777216)).accepts (.integer 16777216)) := by
  have ha : (16777216 : Int32).toInt.natAbs ≤ 2 ^ 24 := by decide
  have hb : (4096 : Int32).toInt.natAbs ≤ 2 ^ 24 := by decide
  have hpos : 0 ≤ (4096 : Int32).toInt := by decide
  have hx : Binary.IsInteger (.ofInt 16777216) (16777216 : Int32).toInt := Binary.isInteger_ofInt ha
  have hy : Binary.IsInteger (.ofInt 4096) (4096 : Int32).toInt := Binary.isInteger_ofInt hb
  obtain ⟨hpaths, hreference, hrange⟩ :=
    integers_agree_with_floats .quotient 16777216 4096 ha hb fun _ => hpos
  obtain ⟨hinteger, hfloat⟩ := hreference _ _ hx hy
  exact ⟨⟨ha, hb, hpos, hx, hy⟩, hpaths, hinteger, hfloat,
    hrange .lessEqual 16777216 ha fun h => absurd h (by decide)⟩

/-- Below zero the integer quotient goes up and the one of floats down. -/
example : Operator.quotient.holdsInt 3 (-2) = false ∧
    Operator.quotient.holdsFloat (.ofInt 3) (.ofInt (-2)) = true := by decide

end Criterion
end Criteria
