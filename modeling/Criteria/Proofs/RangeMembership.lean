import Criteria.Proofs.IntegerText

/-!
# Integers in ranges

A range looks at the floats nearest to its bounds and to its input. As rounding keeps the order, a
closed range keeps every member and an open one lets nobody else in. With bounds of less than 24
bits a range contains what it contains among the integers, whatever the size of the input.
-/

namespace Criteria.Criterion
set_option autoImplicit false

theorem parse_range {lo hi : Int64} {lowerOp upperOp : Operator} {between : String}
    (h : between.toList = lowerOp.symbol ++ 'x' :: upperOp.symbol) :
    parse (toString lo ++ between ++ toString hi) =
      range ⟨lowerOp.converse, .ofInt lo.toInt⟩ ⟨upperOp, .ofInt hi.toInt⟩ := by
  have hlo := Int64.le_toInt lo
  have hlo' := Int64.toInt_lt lo
  have hhi := Int64.le_toInt hi
  have hhi' := Int64.toInt_lt hi
  have htext : (toString lo ++ between ++ toString hi).toList =
      (Literal.ofInt lo.toInt).chars ++ lowerOp.symbol ++
        'x' :: (upperOp.symbol ++ (Literal.ofInt hi.toInt).chars) := by
    have hlower : (toString lo).toList = _ := Literal.toList_toString lo.toInt
    have hupper : (toString hi).toList = _ := Literal.toList_toString hi.toInt
    rw [String.toList_append, String.toList_append, h, hlower, hupper]
    simp only [List.append_assoc, List.cons_append]
  rw [parse, htext]
  exact ofChars_range_ofInt lowerOp upperOp (Format.single_rankOf_lt_top (by omega))
    (Format.single_rankOf_lt_top (by omega))

/-- A range compares the places of floats. -/
theorem accepts_range_ofInt {lowerOp upperOp : Operator} (hl : lowerOp.isComparison = true)
    (hu : upperOp.isComparison = true) {lo hi : Int} (hlo : lo.natAbs ≤ 2 ^ 64)
    (hhi : hi.natAbs ≤ 2 ^ 64) (n : Int) :
    (range ⟨lowerOp, .ofInt lo⟩ ⟨upperOp, .ofInt hi⟩).accepts (.ofInt n) =
      (lowerOp.holdsInt (Format.single.place n) (Format.single.place lo) &&
        upperOp.holdsInt (Format.single.place n) (Format.single.place hi)) := by
  have hlower := Operator.holdsFloat_ofInt hl n (Format.single_rankOf_lt_top hlo)
  have hupper := Operator.holdsFloat_ofInt hu n (Format.single_rankOf_lt_top hhi)
  simp only [accepts, Bound.admits, Value.isPresent_ofInt, Value.toSingle_ofInt, hlower, hupper,
    Bool.true_and]

/-- A closed range around an integer accepts it, an open range accepts none that is not inside, and
ranges with bounds of less than 24 bits accept exactly the integers that they contain. -/
theorem range_membership (lo hi : Int64) (n : Int) :
    (lo.toInt ≤ n ∧ n ≤ hi.toInt →
      (parse (toString lo ++ "<=x<=" ++ toString hi)).accepts (.ofInt n) = true) ∧
    ((parse (toString lo ++ "<x<" ++ toString hi)).accepts (.ofInt n) = true →
      lo.toInt < n ∧ n < hi.toInt) ∧
    (lo.toInt.natAbs < 2 ^ 24 ∧ hi.toInt.natAbs < 2 ^ 24 →
      ((parse (toString lo ++ "<=x<=" ++ toString hi)).accepts (.ofInt n) = true ↔
        lo.toInt ≤ n ∧ n ≤ hi.toInt) ∧
      ((parse (toString lo ++ "<=x<" ++ toString hi)).accepts (.ofInt n) = true ↔
        lo.toInt ≤ n ∧ n < hi.toInt) ∧
      ((parse (toString lo ++ "<x<=" ++ toString hi)).accepts (.ofInt n) = true ↔
        lo.toInt < n ∧ n ≤ hi.toInt) ∧
      ((parse (toString lo ++ "<x<" ++ toString hi)).accepts (.ofInt n) = true ↔
        lo.toInt < n ∧ n < hi.toInt)) := by
  have hlo := Int64.le_toInt lo
  have hlo' := Int64.toInt_lt lo
  have hhi := Int64.le_toInt hi
  have hhi' := Int64.toInt_lt hi
  have haccepts (between : String) (lowerOp upperOp : Operator)
      (hl : lowerOp.converse.isComparison = true) (hu : upperOp.isComparison = true)
      (h : between.toList = lowerOp.symbol ++ 'x' :: upperOp.symbol) :
      (parse (toString lo ++ between ++ toString hi)).accepts (.ofInt n) =
        (lowerOp.converse.holdsInt (Format.single.place n) (Format.single.place lo.toInt) &&
          upperOp.holdsInt (Format.single.place n) (Format.single.place hi.toInt)) := by
    rw [parse_range h]
    exact accepts_range_ofInt hl hu (by omega) (by omega) n
  rw [haccepts "<=x<=" .lessEqual .lessEqual rfl rfl rfl,
    haccepts "<=x<" .lessEqual .less rfl rfl rfl, haccepts "<x<=" .less .lessEqual rfl rfl rfl,
    haccepts "<x<" .less .less rfl rfl rfl]
  simp only [Operator.converse, Operator.holdsInt, Bool.and_eq_true, decide_eq_true_eq]
  refine ⟨?_, ?_, ?_⟩
  · rintro ⟨hl, hu⟩
    exact ⟨Format.single_place_mono hl, Format.single_place_mono hu⟩
  · rintro ⟨hl, hu⟩
    constructor
    · exact Int.not_le.mp (mt Format.single_place_mono (Int.not_le.mpr hl))
    · exact Int.not_le.mp (mt Format.single_place_mono (Int.not_le.mpr hu))
  · rintro ⟨hl, hu⟩
    have hlo := Format.single_place_lt_iff (k := lo.toInt) (n := n) (.inl hl)
    have hlo' := Format.single_place_lt_iff (k := n) (n := lo.toInt) (.inr hl)
    have hhi := Format.single_place_lt_iff (k := hi.toInt) (n := n) (.inl hu)
    have hhi' := Format.single_place_lt_iff (k := n) (n := hi.toInt) (.inr hu)
    omega

/-- The greatest bounds of less than 24 bits, and the member beside the upper one. -/
theorem range_membership_of_24_bits :
    ((-16777215 : Int64).toInt ≤ 16777214 ∧ 16777214 ≤ (16777215 : Int64).toInt) ∧
    (parse (toString (-16777215 : Int64) ++ "<x<" ++ toString (16777215 : Int64))).accepts
      (.ofInt 16777214) = true ∧
    ((-16777215 : Int64).toInt.natAbs < 2 ^ 24 ∧ (16777215 : Int64).toInt.natAbs < 2 ^ 24) ∧
    (parse (toString (-16777215 : Int64) ++ "<=x<=" ++ toString (16777215 : Int64))).accepts
      (.ofInt 16777214) = true ∧
    ((-16777215 : Int64).toInt < 16777214 ∧ 16777214 < (16777215 : Int64).toInt) := by
  have hin : (-16777215 : Int64).toInt ≤ 16777214 ∧ 16777214 ≤ (16777215 : Int64).toInt := by decide
  have hbits : (-16777215 : Int64).toInt.natAbs < 2 ^ 24 ∧
      (16777215 : Int64).toInt.natAbs < 2 ^ 24 := by
    decide
  obtain ⟨hclosed, hopen, hexact⟩ := range_membership (-16777215) 16777215 16777214
  have haccepts := (hexact hbits).2.2.2.mpr (by decide)
  exact ⟨hin, haccepts, hbits, hclosed hin, hopen haccepts⟩

/-- A bound of 25 bits is also the float of its successor. -/
example : (parse "0<=x<=16777216").accepts (.ofInt 16777217) = true := by decide

end Criteria.Criterion
