import Criteria.Proofs.IntegerRules

/-!
# Integers that are their divisor as a quotient

An integer divided by a reference gives the reference back exactly from the square of the reference
on, for as many integers as the reference is large. The sign of the reference makes no difference,
as the quotient is truncated: below zero both sides change theirs.
-/

namespace Criteria
set_option autoImplicit false

namespace Operator

theorem tdiv_eq_self_iff {a b : Int} (hb : 0 < b) : a.tdiv b = b ↔ b * b ≤ a ∧ a < b * b + b := by
  rcases Int.lt_or_le a 0 with ha | ha
  · -- A negative integer has no positive quotient, and lies below every square.
    have hquotient : 0 ≤ (-a).tdiv b := Int.tdiv_nonneg (by omega) (by omega)
    rw [Int.neg_tdiv] at hquotient
    have hsquare : 0 < b * b := Int.mul_pos hb hb
    omega
  · rw [Int.tdiv_eq_ediv_of_nonneg ha, Int.ediv_eq_iff_of_pos hb]

theorem holdsInt_quotient_iff (a b : Int) : quotient.holdsInt a b = true ↔
    b ≠ 0 ∧ b * b ≤ a ∧ a ≤ b * b + b.natAbs - 1 := by
  simp only [holdsInt, Bool.and_eq_true, bne_iff_ne, beq_iff_eq]
  apply and_congr_right
  intro hb
  rcases Int.lt_or_gt_of_ne hb with hneg | hpos
  · -- The opposite divisor is positive, and with it the quotient too is the opposite.
    have hopposite := tdiv_eq_self_iff (a := a) (b := -b) (by omega)
    rw [Int.tdiv_neg, Int.neg_inj, Int.neg_mul_neg] at hopposite
    rw [hopposite]
    omega
  · rw [tdiv_eq_self_iff hpos]
    omega

/-- Beyond the root of the greatest 32-bit integer no quotient is its divisor. -/
theorem not_holdsInt_quotient {a : Int} (ha : a < 2 ^ 31) {b : Int} (hb : 46340 < b.natAbs) :
    quotient.holdsInt a b = false := by
  have hsquare : 46341 * 46341 ≤ b.natAbs * b.natAbs := Nat.mul_le_mul hb hb
  have hcast : ((b.natAbs * b.natAbs : Nat) : Int) = b * b := Int.natAbs_mul_self
  rw [Bool.eq_false_iff, ne_eq, holdsInt_quotient_iff]
  omega

end Operator

namespace Criterion

theorem accepts_quotient (a b : Int32) : (parse ("%=" ++ toString b)).accepts (.integer a) =
    Operator.quotient.holdsInt a.toInt b.toInt := by
  have hparse : parse ("%=" ++ toString b) = _ := parse_name_append .quotient b
  rw [hparse]
  rfl

/-- Of the 32-bit integers a quotient with a 32-bit reference accepts exactly those from the square
of the reference on, as many as the reference is large. It accepts none if the reference is zero or
its square too large, and minus one does not accept the integer whose quotient is too large. -/
theorem quotient_rule_iff (a b : Int32) :
    ((parse ("%=" ++ toString b)).accepts (.integer a) = true ↔
      b ≠ 0 ∧ b.toInt * b.toInt ≤ a.toInt ∧
        a.toInt ≤ b.toInt * b.toInt + b.toInt.natAbs - 1) ∧
    (46340 < b.toInt.natAbs → (parse ("%=" ++ toString b)).accepts (.integer a) = false) ∧
    (parse ("%=" ++ toString (-1 : Int32))).accepts (.integer Int32.minValue) = false := by
  have hne : b ≠ 0 ↔ b.toInt ≠ 0 := not_congr Int32.toInt_inj.symm
  refine ⟨?_, ?_, ?_⟩
  · rw [accepts_quotient, Operator.holdsInt_quotient_iff, hne]
  · intro hb
    rw [accepts_quotient]
    exact Operator.not_holdsInt_quotient (Int32.toInt_lt a) hb
  · rw [accepts_quotient]
    decide

/-- The greatest references of either sign, the greatest integer that one accepts, and the next
reference. -/
theorem quotient_rule_at_46340 :
    (parse ("%=" ++ toString (-46340 : Int32))).accepts (.integer 2147441939) = true ∧
    (46340 < (46341 : Int32).toInt.natAbs ∧
      (parse ("%=" ++ toString (46341 : Int32))).accepts (.integer Int32.maxValue) = false) := by
  have hbeyond : 46340 < (46341 : Int32).toInt.natAbs := by decide
  refine ⟨?_, hbeyond, ?_⟩
  · exact (quotient_rule_iff 2147441939 (-46340)).1.mpr (by decide)
  · exact (quotient_rule_iff Int32.maxValue 46341).2.1 hbeyond

end Criterion
end Criteria
