import Criteria.Proofs.IntegerText

/-!
# Rules about integers

An operator in front of an integer of 32 bits compares any integer with it as integers are compared.
Only an integer that just does not fit into 32 bits can go to the float of one that just fits, and
then the two count as equal.
-/

namespace Criteria
set_option autoImplicit false

/-- An integer just outside of 32 bits, and one just inside at the same end. -/
def AcrossEdge (a b : Int) : Prop :=
  (2 ^ 31 ≤ a ∧ a ≤ 2 ^ 31 + 128 ∧ 2 ^ 31 - 64 ≤ b) ∨
  (a < -2 ^ 31 ∧ -2 ^ 31 - 128 ≤ a ∧ b ≤ -2 ^ 31 + 64)

instance (a b : Int) : Decidable (AcrossEdge a b) := inferInstanceAs (Decidable (_ ∨ _))

namespace Format

/-- Around the upper edge the floats are 128 apart below and 256 apart above. -/
theorem place_eq_iff_edge {a b : Int} (ha : 2 ^ 31 ≤ a) (hb : b ≤ 2 ^ 31) :
    single.place a = single.place b ↔ a ≤ 2 ^ 31 + 128 ∧ 2 ^ 31 - 64 ≤ b := by
  have hedge : single.place (2 ^ 31 - 64) = single.place (2 ^ 31 + 128) := by decide
  have hbelow : single.place (2 ^ 31 - 65) < single.place (2 ^ 31 - 64) := by decide
  have habove : single.place (2 ^ 31 + 128) < single.place (2 ^ 31 + 129) := by decide
  have hba : single.place b ≤ single.place a := single_place_mono (by omega)
  constructor
  · intro h
    by_contra hout
    rw [not_and_or, Int.not_le, Int.not_le] at hout
    rcases hout with hout | hout
    · have h₁ : single.place (2 ^ 31 + 129) ≤ single.place a := single_place_mono (by omega)
      have h₂ : single.place b ≤ single.place (2 ^ 31 + 128) := single_place_mono (by omega)
      omega
    · have h₁ : single.place b ≤ single.place (2 ^ 31 - 65) := single_place_mono (by omega)
      have h₂ : single.place (2 ^ 31 - 64) ≤ single.place a := single_place_mono (by omega)
      omega
  · rintro ⟨h₁, h₂⟩
    have h₁ : single.place a ≤ single.place (2 ^ 31 + 128) := single_place_mono h₁
    have h₂ : single.place (2 ^ 31 - 64) ≤ single.place b := single_place_mono h₂
    omega

theorem place_eq_iff_acrossEdge {a b : Int} (ha : a < -2 ^ 31 ∨ 2 ^ 31 ≤ a)
    (hb : -2 ^ 31 ≤ b ∧ b < 2 ^ 31) : single.place a = single.place b ↔ AcrossEdge a b := by
  rcases ha with ha | ha
  · have h := place_eq_iff_edge (a := -a) (b := -b) (by omega) (by omega)
    rw [place_neg, place_neg, Int.neg_inj] at h
    rw [h, AcrossEdge]
    omega
  · rw [place_eq_iff_edge ha (by omega), AcrossEdge]
    omega

end Format

namespace Value

theorem exists_of_int32?_none {a : Int} (h : int32? a = none) : a < -2 ^ 31 ∨ 2 ^ 31 ≤ a := by
  unfold int32? at h
  split at h
  · simp at h
  · omega

/-- Compared with a 32-bit integer, an integer stands for itself, and across the edge for the
reference. -/
theorem satisfies_ofInt_integer {op : Operator} (hop : op.isComparison = true) (a : Int)
    (b : Int32) : (ofInt a).satisfies op (integer b) =
      op.holdsInt (if AcrossEdge a b.toInt then b.toInt else a) b.toInt := by
  have hlo := Int32.le_toInt b
  have hhi := Int32.toInt_lt b
  cases h : int32? a with
  | some m =>
    have hm := toInt_of_int32? h
    have hlo' := Int32.le_toInt m
    have hhi' := Int32.toInt_lt m
    have hinside : ¬ AcrossEdge a b.toInt := by
      unfold AcrossEdge
      omega
    rw [if_neg hinside, ofInt, h]
    simp only [satisfies, hm]
  | none =>
    have hout := exists_of_int32?_none h
    have heq := Format.place_eq_iff_acrossEdge hout ⟨hlo, hhi⟩
    have hfloat : (ofInt a).satisfies op (integer b) =
        op.holdsInt (Format.single.place a) (Format.single.place b.toInt) := by
      rw [ofInt, h]
      exact Operator.holdsFloat_ofInt hop a (Format.single_rankOf_lt_top (by omega))
    rw [hfloat]
    by_cases hacross : AcrossEdge a b.toInt
    · rw [if_pos hacross, heq.mpr hacross]
      exact Operator.holdsInt_congr hop (by omega) (by omega)
    · rw [if_neg hacross]
      have hne := mt heq.mp hacross
      rcases hout with hout | hout
      · have hmono := Format.single_place_mono (show a ≤ b.toInt by omega)
        exact Operator.holdsInt_congr hop (by omega) (by omega)
      · have hmono := Format.single_place_mono (show b.toInt ≤ a by omega)
        exact Operator.holdsInt_congr hop (by omega) (by omega)

end Value

namespace Criterion

theorem parse_name_append (op : Operator) (b : Int32) :
    parse (op.name ++ toString b) = single op (.integer b) := by
  have hlo := Int32.le_toInt b
  have hhi := Int32.toInt_lt b
  have hfits : Format.single.rankOf b.toInt.natAbs < Format.single.top :=
    Format.single_rankOf_lt_top (by omega)
  have htext : (op.name ++ toString b).toList = op.symbol ++ (Literal.ofInt b.toInt).chars := by
    rw [String.toList_append, Operator.name, String.toList_ofList]
    exact congrArg _ (Literal.toList_toString b.toInt)
  rw [parse, htext, ofChars_symbol_ofInt op hfits, Value.ofInt_toInt]

/-- Each of the six comparing operators in front of a 32-bit integer holds of exactly the integers
of which it holds among the integers, with one exception: an integer across the edge counts as
equal. -/
theorem integer_rule_iff (a : Int) (b : Int32) :
    ((parse ("<" ++ toString b)).accepts (.ofInt a) = true ↔
      a < b.toInt ∧ ¬ AcrossEdge a b.toInt) ∧
    ((parse ("<=" ++ toString b)).accepts (.ofInt a) = true ↔
      a ≤ b.toInt ∨ AcrossEdge a b.toInt) ∧
    ((parse (">" ++ toString b)).accepts (.ofInt a) = true ↔
      a > b.toInt ∧ ¬ AcrossEdge a b.toInt) ∧
    ((parse (">=" ++ toString b)).accepts (.ofInt a) = true ↔
      a ≥ b.toInt ∨ AcrossEdge a b.toInt) ∧
    ((parse ("==" ++ toString b)).accepts (.ofInt a) = true ↔
      a = b.toInt ∨ AcrossEdge a b.toInt) ∧
    ((parse ("!=" ++ toString b)).accepts (.ofInt a) = true ↔
      a ≠ b.toInt ∧ ¬ AcrossEdge a b.toInt) := by
  have haccepts (op : Operator) (hop : op.isComparison = true) :
      (parse (op.name ++ toString b)).accepts (.ofInt a) =
        op.holdsInt (if AcrossEdge a b.toInt then b.toInt else a) b.toInt := by
    rw [parse_name_append]
    exact Value.satisfies_ofInt_integer hop a b
  have hless : (parse ("<" ++ toString b)).accepts (.ofInt a) = _ := haccepts .less rfl
  have hlessEqual : (parse ("<=" ++ toString b)).accepts (.ofInt a) = _ := haccepts .lessEqual rfl
  have hgreater : (parse (">" ++ toString b)).accepts (.ofInt a) = _ := haccepts .greater rfl
  have hgreaterEqual : (parse (">=" ++ toString b)).accepts (.ofInt a) = _ :=
    haccepts .greaterEqual rfl
  have hequal : (parse ("==" ++ toString b)).accepts (.ofInt a) = _ := haccepts .equal rfl
  have hnotEqual : (parse ("!=" ++ toString b)).accepts (.ofInt a) = _ := haccepts .notEqual rfl
  rw [hless, hlessEqual, hgreater, hgreaterEqual, hequal, hnotEqual]
  by_cases h : AcrossEdge a b.toInt
  · simp [h, Operator.holdsInt]
  · simp [h, Operator.holdsInt]

/-- The float of the 32-bit maximum is also that of its successor. -/
theorem equal_across_edge :
    (parse ("==" ++ toString (2147483647 : Int32))).accepts (.ofInt 2147483648) = true ∧
    (2147483648 : Int) ≠ (2147483647 : Int32).toInt := by
  decide

end Criterion
end Criteria
