import Criteria.Criterion.Accepts
import Criteria.Proofs.WholeFloats

/-!
# Integers written in decimal

The decimal text of an integer spells the value that the integer has anyhow: an integer of 32 bits,
or the nearest float. So an expression that is built of operators and such texts can be told what it
means.
-/

namespace Criteria
set_option autoImplicit false

namespace Literal

theorem toList_toString (n : Int) : (toString n).toList = (ofInt n).chars := by
  have hrepr : toString n = n.repr := rfl
  rw [hrepr, Int.repr_eq_if]
  rcases Int.lt_or_le n 0 with h | h
  · have habs : (-n).toNat = n.natAbs := by omega
    rw [if_neg (by omega), habs]
    simp [chars, ofInt, h, Sign.chars, Sign.char, fractionChars, exponentChars]
  · have habs : n.toNat = n.natAbs := by omega
    rw [if_pos h, habs]
    simp [chars, ofInt, Int.not_lt.mpr h, Sign.chars, fractionChars, exponentChars]

theorem decimal_ofInt (n : Int) : (ofInt n).decimal = ⟨n < 0, n.natAbs, 0⟩ := by
  have hsign : (ofInt n).isNegative = decide (n < 0) := by
    by_cases h : n < 0 <;> simp [isNegative, ofInt, h]
  have hdigits : Nat.ofDigitChars 10 (Nat.toDigits 10 n.natAbs) 0 = n.natAbs :=
    Nat.ofDigitChars_ten_toDigits
  rw [decimal, hsign]
  simp [ofInt, hdigits]

end Literal

namespace Value

theorem toInt_of_int32? {n : Int} {m : Int32} (h : int32? n = some m) : m.toInt = n := by
  unfold int32? at h
  split at h
  · next hn =>
    rw [← Option.some.inj h]
    exact Int32.toInt_ofInt_of_le hn.1 hn.2
  · simp at h

/-- The value of an integer has the float nearest to the integer as its float view. -/
theorem toSingle_ofInt (n : Int) : (ofInt n).toSingle = .ofInt n := by
  unfold ofInt
  split
  · next m h => rw [toSingle, toInt_of_int32? h]
  · rfl

theorem isPresent_ofInt (n : Int) : (ofInt n).isPresent = true := by
  unfold ofInt
  split <;> rfl

variable {n : Int} (h : Format.single.rankOf n.natAbs < Format.single.top)
include h

theorem ofChars_ofInt : ofChars (Literal.ofInt n).chars = ofInt n := by
  have hwell := Literal.ofInt_wellFormed n
  have hint : (Literal.ofInt n).int32? = int32? n := by simp [Literal.int32?]
  rw [ofChars_literal hwell, ofInt]
  split
  · next m hm => exact infer_literal_integer hwell (hint.trans hm)
  · next hm =>
    apply infer_literal_float hwell (hint.trans hm)
    have hx : (Literal.ofInt n).decimal.toBinary .single = .ofInt n := by
      rw [Literal.decimal_ofInt, Decimal.toBinary_eq_ofUnits (by decide)]
      simp [Decimal.numerator, Decimal.denominator, Binary.ofInt]
    rw [Literal.single?, hx, if_pos (Binary.isWhole_ofInt h).finite]

theorem isNumberText_ofInt : Criterion.IsNumberText (Literal.ofInt n).chars := by
  rw [Criterion.IsNumberText, ofChars_ofInt h, ofInt]
  split <;> rfl

end Value

namespace Criterion

theorem ofChars_symbol_ofInt (op : Operator) {n : Int}
    (h : Format.single.rankOf n.natAbs < Format.single.top) :
    ofChars (op.symbol ++ (Literal.ofInt n).chars) = single op (.ofInt n) := by
  rw [ofChars_symbol_append ((Value.isNumberText_ofInt h).fuses op), Value.ofChars_ofInt h]

theorem ofChars_range_ofInt (lowerOp upperOp : Operator) {lo hi : Int}
    (hlo : Format.single.rankOf lo.natAbs < Format.single.top)
    (hhi : Format.single.rankOf hi.natAbs < Format.single.top) :
    ofChars ((Literal.ofInt lo).chars ++ lowerOp.symbol ++
        'x' :: (upperOp.symbol ++ (Literal.ofInt hi).chars)) =
      range ⟨lowerOp.converse, .ofInt lo⟩ ⟨upperOp, .ofInt hi⟩ := by
  rw [ofChars_range_numerals lowerOp upperOp
    (Value.isNumberText_ofInt hlo) (Value.isNumberText_ofInt hhi)
    (Literal.ofInt_wellFormed lo).chars_numeral (Literal.ofInt_wellFormed hi).chars_numeral,
    Value.ofChars_ofInt hlo, Value.ofChars_ofInt hhi]

end Criterion
end Criteria
