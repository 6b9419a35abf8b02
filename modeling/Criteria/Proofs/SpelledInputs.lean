import Criteria.Proofs.IntegerText
import Criteria.Proofs.NearestData

/-!
# Texts as inputs of a range

A range reads the float that a text spells, also if the text spells an integer, which on its own
would first become a 32-bit integer and then a float. Both ways lead to the same number: only a zero
with a minus keeps its sign on the first and loses it on the second. No operator looks at the sign
of a zero, whether it is compared, divided or left as a remainder.
-/

namespace Criteria
set_option autoImplicit false

namespace Binary

theorem ofUnits_zero {f : Format} (hf : 0 < f.fractionBits) (s : Bool) {den : Nat}
    (pos : 0 < den) : (ofUnits s 0 den : Binary f) = zero s := by
  rw [ofUnits, f.nearestRank_zero hf pos, zero]

/-- The same float, or zeros, whose signs may differ. -/
inductive SameNumber : Single → Single → Prop where
  | refl (x : Single) : SameNumber x x
  | zeros (s t : Bool) : SameNumber (zero s) (zero t)

namespace SameNumber
variable {x y : Single} (h : SameNumber x y)
include h

theorem position?_eq : x.position? = y.position? := by
  cases h with
  | refl => rfl
  | zeros s t => cases s <;> cases t <;> rfl

theorem signedUnits_eq : x.signedUnits = y.signedUnits := by
  cases h with
  | refl => rfl
  | zeros s t => cases s <;> cases t <;> decide

theorem isFinite_eq : x.isFinite = y.isFinite := by
  cases h <;> rfl

theorem lt_eq (c : Single) : x.lt c = y.lt c ∧ c.lt x = c.lt y := by
  simp only [lt, h.position?_eq, and_self]

theorem le_eq (c : Single) : x.le c = y.le c ∧ c.le x = c.le y := by
  simp only [le, h.position?_eq, and_self]

theorem isClose_eq (c : Single) : x.isClose c = y.isClose c := by
  have hunits := h.signedUnits_eq
  cases h with
  | refl => rfl
  | zeros s t =>
    cases c with
    | nan | infinite => rfl
    | finite u r =>
      rw [isClose, isClose, distance_of_isFinite rfl rfl, distance_of_isFinite rfl rfl, hunits]

theorem floor : SameNumber x.floor y.floor := by
  have hzero (s : Bool) : (zero s : Single).floor = zero s := by cases s <;> decide
  cases h with
  | refl => exact .refl _
  | zeros s t =>
    rw [hzero, hzero]
    exact .zeros s t

/-- A zero leaves no number if it is divided by zero, and else a zero. -/
theorem quotient (c : Single) : SameNumber (x.quotient c) (y.quotient c) := by
  cases h with
  | refl => exact .refl _
  | zeros s t =>
    cases c with
    | nan => exact .refl _
    | infinite u => exact .zeros _ _
    | finite u r =>
      have hzero (s : Bool) : (zero s : Single).quotient (finite u r) =
          if Format.single.units r = 0 then nan else
            ofUnits (s != u) 0 (Format.single.units r) := rfl
      rw [hzero, hzero]
      split
      · exact .refl _
      · next hne =>
        have pos := Nat.pos_of_ne_zero hne
        rw [ofUnits_zero (by decide) _ pos, ofUnits_zero (by decide) _ pos]
        exact .zeros _ _

theorem remainder (c : Single) : SameNumber (x.remainder c) (y.remainder c) := by
  cases h with
  | refl => exact .refl _
  | zeros s t =>
    cases c with
    | nan => exact .refl _
    | infinite u => exact .zeros s t
    | finite u r =>
      have hzero (s : Bool) : (zero s : Single).remainder (finite u r) =
          if Format.single.units r = 0 then nan else
            ofUnits s (0 % Format.single.units r) 1 := rfl
      rw [hzero, hzero, Nat.zero_mod, ofUnits_zero (by decide) _ Nat.one_pos,
        ofUnits_zero (by decide) _ Nat.one_pos]
      split
      · exact .refl _
      · exact .zeros s t

end SameNumber
end Binary

open Binary in
/-- No operator looks at the sign of a zero input. -/
theorem Operator.holdsFloat_sameNumber (op : Operator) {x y : Single} (h : SameNumber x y)
    (c : Single) : op.holdsFloat x c = op.holdsFloat y c := by
  cases op with
  | equal => exact h.isClose_eq c
  | notEqual => exact congrArg (!·) (h.isClose_eq c)
  | less => exact (h.lt_eq c).1
  | lessEqual => exact (h.le_eq c).1
  | greater => exact (h.lt_eq c).2
  | greaterEqual => exact (h.le_eq c).2
  | quotient => exact (h.quotient c).floor.isClose_eq c
  | remainder => exact (h.remainder c).isClose_eq c

namespace Literal
variable {l : Literal}

theorem decimal_of_integer? {n : Int} (h : l.integer? = some n) :
    l.decimal = ⟨l.isNegative, n.natAbs, 0⟩ ∧ (n ≠ 0 → l.isNegative = decide (n < 0)) := by
  rw [integer?, Option.ite_none_right_eq_some, Bool.and_eq_true, Option.isNone_iff_eq_none,
    Option.isNone_iff_eq_none] at h
  obtain ⟨⟨hfraction, hexponent⟩, hvalue⟩ := h
  have hvalue := Option.some.inj hvalue
  constructor
  · have habs : n.natAbs = Nat.ofDigitChars 10 l.whole 0 := by
      rw [← hvalue]
      split <;> simp
    simp [decimal, hfraction, hexponent, habs]
  · intro hne
    cases hs : l.isNegative <;> simp only [hs, if_true, Bool.false_eq_true, if_false] at hvalue
    · exact (decide_eq_false (by omega)).symm
    · exact (decide_eq_true (by omega)).symm

/-- The float nearest to a literal without point and exponent is the float of its integer. -/
theorem sameNumber_of_integer? {n : Int} (h : l.integer? = some n) :
    Binary.SameNumber (l.decimal.toBinary .single) (.ofInt n) := by
  obtain ⟨hdecimal, hsign⟩ := decimal_of_integer? h
  have hbinary : l.decimal.toBinary .single =
      .ofUnits l.isNegative (n.natAbs * Format.single.one) 1 := by
    rw [hdecimal, Decimal.toBinary_eq_ofUnits (by decide)]
    simp [Decimal.numerator, Decimal.denominator]
  rw [hbinary, Binary.ofInt]
  by_cases hn : n = 0
  · subst hn
    rw [Int.natAbs_zero, Nat.zero_mul, Binary.ofUnits_zero (by decide) _ Nat.one_pos,
      Binary.ofUnits_zero (by decide) _ Nat.one_pos]
    exact .zeros _ _
  · rw [hsign hn]
    exact .refl _

theorem single?_isFinite {x : Single} (h : l.single? = some x) : x.isFinite = true := by
  rw [single?, Option.ite_none_right_eq_some] at h
  rw [← Option.some.inj h.2]
  exact h.1

theorem exists_single?_of_int32? {n : Int32} (h : l.int32? = some n) :
    ∃ x, l.single? = some x ∧ Binary.SameNumber x (.ofInt n.toInt) := by
  obtain ⟨m, hm, hn⟩ := Option.bind_eq_some_iff.mp h
  have hsame := sameNumber_of_integer? hm
  rw [← Value.toInt_of_int32? hn] at hsame
  have hlo := Int32.le_toInt n
  have hhi := Int32.toInt_lt n
  have hfinite := Binary.isWhole_ofInt (n := n.toInt) (Format.single_rankOf_lt_top (by omega))
  have hbinary := hsame.isFinite_eq.trans hfinite.finite
  exact ⟨_, by rw [single?, if_pos hbinary], hsame⟩

end Literal

namespace Value
open Binary

theorem isPresent_infer (cs : List Char) : (infer cs).isPresent = true := by
  rcases infer_cases cs with ⟨n, h⟩ | ⟨x, h, _⟩ | ⟨b, h⟩ | h <;> rw [h] <;> rfl

theorem toSingle_text_isFinite (s : String) : (text s).toSingle.isFinite = true := by
  rw [toSingle]
  cases h : (Literal.scan? (Text.trim s.toList)).bind Literal.single? with
  | none => rfl
  | some x =>
    obtain ⟨l, _, hl⟩ := Option.bind_eq_some_iff.mp h
    exact Literal.single?_isFinite hl

/-- The float view of a text is the number that the text spells. -/
theorem toSingle_text_sameNumber (s : String) :
    SameNumber (text s).toSingle (parse s).toSingle := by
  have htrim := Text.trim_trim s.toList
  rw [parse, ofChars, toSingle]
  generalize Text.trim s.toList = cs at htrim ⊢
  have htext : (text (String.ofList cs)).toSingle =
      ((Literal.scan? cs).bind Literal.single?).getD (.zero false) := by
    rw [toSingle, String.toList_ofList, htrim]
  cases hl : Literal.scan? cs with
  | none =>
    rw [hl] at htext
    simp only [infer, hl]
    split
    · exact .refl _
    split
    · exact .refl _
    · rw [htext]
      exact .refl _
  | some l =>
    rw [hl] at htext
    cases hn : l.int32? with
    | some n =>
      obtain ⟨x, hx, hsame⟩ := Literal.exists_single?_of_int32? hn
      simpa only [infer, hl, hn, hx, Option.bind_some, Option.getD_some, toSingle] using hsame
    | none =>
      cases hx : l.single? with
      | some x =>
        simp only [infer, hl, hn, hx, Option.bind_some, Option.getD_some, toSingle]
        exact .refl x
      | none =>
        simp only [infer, hl, hn, hx, htext]
        exact .refl _

/-- A zero with a minus keeps it as a text only. -/
example : (text " -0 ").toSingle = .zero true ∧ (parse " -0 ").toSingle = .zero false := by decide

end Value

namespace Criterion

/-- The float view of any text and that of the value which it spells are finite and the same number,
but for the sign of a zero, and a range accepts both or neither. -/
theorem range_accepts_text (s : String) :
    ((Value.text s).toSingle.isFinite = true ∧ (Value.parse s).toSingle.isFinite = true ∧
      (Value.text s).toSingle.toRat = (Value.parse s).toSingle.toRat) ∧
    Binary.SameNumber (Value.text s).toSingle (Value.parse s).toSingle ∧
    ∀ lower upper : Bound,
      (range lower upper).accepts (.text s) = (range lower upper).accepts (.parse s) := by
  have hsame := Value.toSingle_text_sameNumber s
  have hfinite := Value.toSingle_text_isFinite s
  have hpresent : (Value.parse s).isPresent = (Value.text s).isPresent := Value.isPresent_infer _
  refine ⟨⟨hfinite, hsame.isFinite_eq ▸ hfinite, ?_⟩, hsame, ?_⟩
  · rw [Binary.toRat, Binary.toRat, hsame.signedUnits_eq]
  · intro lower upper
    simp only [accepts, Bound.admits, hpresent, Operator.holdsFloat_sameNumber _ hsame]

end Criterion
end Criteria
