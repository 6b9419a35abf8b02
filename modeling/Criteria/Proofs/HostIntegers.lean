import Criteria.Host
import Criteria.Proofs.Conversions
import Criteria.Proofs.IntegerRoutes

/-!
# Integers of any size from the host

An integer of 64 bits is rounded to a float once, a larger one through a double, and one that is too
large for a double is refused. Both ways agree on the ends of 64 bits, which are powers of two, and
each keeps the order. So the floats of two integers are never in the wrong order, whichever way each
of them took, and also if one became infinite.
-/

namespace Criteria.Host
set_option autoImplicit false

/-- What becomes of an integer. -/
inductive Taken (n : Int) : Except Error Value → Prop where
  | directly (fits : -2 ^ 63 ≤ n ∧ n < 2 ^ 63) : Taken n (.ok (.ofInt n))
  | throughDouble (wide : ¬ (-2 ^ 63 ≤ n ∧ n < 2 ^ 63)) (small : n.natAbs < 2 ^ 1024 - 2 ^ 970) :
      Taken n (.ok (.float (Binary.ofInt n : Double).convert))
  | refused (large : 2 ^ 1024 - 2 ^ 970 ≤ n.natAbs) : Taken n (.error .integerTooLarge)

theorem natAbs_lt_of_le_two_pow {n : Int} (h : n.natAbs ≤ 2 ^ 63) : n.natAbs < 2 ^ 1024 - 2 ^ 970 :=
  (Format.double_rankOf_lt_top_iff n.natAbs).mp (Format.double_rankOf_lt_top h)

theorem taken_toValue (n : Int) : Taken n (Object.int n).toValue := by
  by_cases hfits : -2 ^ 63 ≤ n ∧ n < 2 ^ 63
  · rw [Object.toValue_int hfits]
    exact .directly hfits
  rw [Object.toValue_int_of_wide hfits]
  by_cases hfinite : (Binary.ofInt n : Double).isFinite = true
  · have hview : (Object.int n).double = .ok (.ofInt n) := if_pos hfinite
    rw [hview]
    exact .throughDouble hfits ((Binary.double_ofInt_isFinite_iff n).mp hfinite)
  · have hview : (Object.int n).double = .error .integerTooLarge := if_neg hfinite
    rw [hview]
    apply Taken.refused
    rwa [Binary.double_ofInt_isFinite_iff, Nat.not_lt] at hfinite

section Taken
variable {n m : Int}

theorem Taken.error_iff {r : Except Error Value} (h : Taken n r) :
    r = .error .integerTooLarge ↔ 2 ^ 1024 - 2 ^ 970 ≤ n.natAbs := by
  cases h with
  | directly fits =>
    have hsmall : n.natAbs < 2 ^ 1024 - 2 ^ 970 := natAbs_lt_of_le_two_pow (by omega)
    exact iff_of_false nofun (Nat.not_le.mpr hsmall)
  | throughDouble wide small => exact iff_of_false nofun (Nat.not_le.mpr small)
  | refused large => exact iff_of_true rfl large

theorem Taken.exists_iff {r : Except Error Value} (h : Taken n r) :
    (∃ v, r = .ok v) ↔ n.natAbs < 2 ^ 1024 - 2 ^ 970 := by
  rw [← Nat.not_le, ← h.error_iff]
  cases h with
  | directly fits => exact iff_of_true ⟨_, rfl⟩ nofun
  | throughDouble wide small => exact iff_of_true ⟨_, rfl⟩ nofun
  | refused large => exact iff_of_false nofun (absurd rfl)

/-- At both ends of 64 bits the way through a double leads to the same float. -/
theorem convert_ofInt_edge (h : n.natAbs = 2 ^ 63) :
    ((Binary.ofInt n : Double).convert : Single) = .ofInt n := by
  have hone : 1 ≤ 2 * 2 ^ Format.double.fractionBits := by decide
  have hunits := Format.double.units_rankOf_mul hone 63
  rw [Nat.one_mul, ← h] at hunits
  apply Binary.convert_ofInt Format.single_fractionBits_pos hunits
  exact Format.double_rankOf_lt_top (Nat.le_of_eq h)

theorem convert_ofInt_le (h : n ≤ m) (hn : n.natAbs < 2 ^ 1024 - 2 ^ 970)
    (hm : m.natAbs < 2 ^ 1024 - 2 ^ 970) :
    ((Binary.ofInt n : Double).convert : Single).le (Binary.ofInt m : Double).convert = true := by
  apply Binary.convert_le Format.single_fractionBits_pos
  · exact (Binary.double_ofInt_isFinite_iff n).mpr hn
  · exact (Binary.double_ofInt_isFinite_iff m).mpr hm
  · exact Binary.ofInt_le Format.double_fractionBits_pos h

/-- Integers that are taken in one way keep their order, and between two that are taken in different
ways there is an end of 64 bits, to which both ways lead. -/
theorem Taken.le {v w : Value} (hn : Taken n (.ok v)) (hm : Taken m (.ok w)) (h : n ≤ m) :
    v.toSingle.le w.toSingle = true := by
  have hdirect {i j : Int} (hij : i ≤ j) : (Binary.ofInt i : Single).le (.ofInt j) = true :=
    Binary.ofInt_le Format.single_fractionBits_pos hij
  cases hn with
  | directly hnfits =>
    rw [Value.toSingle_ofInt]
    cases hm with
    | directly hmfits =>
      rw [Value.toSingle_ofInt]
      exact hdirect h
    | throughDouble hwide hsmall =>
      have hedge : ((2 ^ 63 : Int)).natAbs = 2 ^ 63 := rfl
      have habove : (2 ^ 63 : Int) ≤ m := by omega
      apply Binary.le_trans (hdirect (Int.le_of_lt hnfits.2))
      rw [← convert_ofInt_edge hedge]
      exact convert_ofInt_le habove (natAbs_lt_of_le_two_pow (Nat.le_of_eq hedge)) hsmall
  | throughDouble hwide hsmall =>
    cases hm with
    | directly hmfits =>
      have hedge : ((-2 ^ 63 : Int)).natAbs = 2 ^ 63 := rfl
      have hbelow : n ≤ -2 ^ 63 := by omega
      rw [Value.toSingle_ofInt]
      refine Binary.le_trans ?_ (hdirect hmfits.1)
      rw [← convert_ofInt_edge hedge]
      exact convert_ofInt_le hbelow hsmall (natAbs_lt_of_le_two_pow (Nat.le_of_eq hedge))
    | throughDouble _ hsmall' => exact convert_ofInt_le h hsmall hsmall'

end Taken

/-- An integer of the host is taken directly, or through a double, or refused as too large, which it
is exactly from the midpoint below the first power of two that is no double on. The float views of
integers that are not refused are in the order of the integers. -/
theorem integers_keep_order :
    (∀ n : Int, Taken n (Object.int n).toValue) ∧
    (∀ n : Int, ((Object.int n).toValue = .error .integerTooLarge ↔
        2 ^ 1024 - 2 ^ 970 ≤ n.natAbs) ∧
      ((∃ v, (Object.int n).toValue = .ok v) ↔ n.natAbs < 2 ^ 1024 - 2 ^ 970)) ∧
    ∀ (n m : Int) (v w : Value), n ≤ m → (Object.int n).toValue = .ok v →
      (Object.int m).toValue = .ok w → v.toSingle.le w.toSingle = true := by
  refine ⟨taken_toValue, ?_, ?_⟩
  · intro n
    exact ⟨(taken_toValue n).error_iff, (taken_toValue n).exists_iff⟩
  · intro n m v w h hv hw
    have hn := hv ▸ taken_toValue n
    have hm := hw ▸ taken_toValue m
    exact hn.le hm h

/-- The greatest integer of 64 bits against the greatest one that a double can take, which is
infinite as a float. -/
theorem integers_keep_order_to_infinity :
    (2 ^ 63 - 1 : Int) ≤ 2 ^ 1024 - 2 ^ 970 - 1 ∧
    (Object.int (2 ^ 63 - 1)).toValue = .ok (.float (.ofInt (2 ^ 63 - 1))) ∧
    (Object.int (2 ^ 1024 - 2 ^ 970 - 1)).toValue = .ok (.float (.infinite false)) ∧
    (Binary.ofInt (2 ^ 63 - 1) : Single).le (.infinite false) = true := by
  have hle : (2 ^ 63 - 1 : Int) ≤ 2 ^ 1024 - 2 ^ 970 - 1 := by decide +kernel
  have hlow : (Object.int (2 ^ 63 - 1)).toValue = .ok (.float (.ofInt (2 ^ 63 - 1))) := by
    decide +kernel
  have hhigh : (Object.int (2 ^ 1024 - 2 ^ 970 - 1)).toValue = .ok (.float (.infinite false)) := by
    decide +kernel
  exact ⟨hle, hlow, hhigh, integers_keep_order.2.2 _ _ _ _ hle hlow hhigh⟩

end Criteria.Host
