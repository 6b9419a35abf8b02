import Mathlib.Data.List.Induction
import Mathlib.Tactic.NormNum
import Mathlib.Tactic.Ring
import Criteria.Proofs.DecimalValues
import Criteria.Proofs.Thousandths

/-!
# One text for every number of thousandths

Digits without a zero in front are those of their number, and digits with a fixed place for each are
determined by it. So a decimal to three places that has no needless zeros and no sign without need
is the text of its number of thousandths, and of no other number.
-/

namespace Criteria
set_option autoImplicit false

section Digits

theorem exists_digitChar {c : Char} (h : c.isDigit = true) : ∃ d, d < 10 ∧ c = Nat.digitChar d := by
  obtain ⟨lo, hi⟩ := Char.isDigit_iff_toNat.mp h
  have hzero : '0'.toNat = 48 := rfl
  have hnine : '9'.toNat = 57 := rfl
  have hlt : c.toNat - 48 < 10 := by omega
  refine ⟨c.toNat - 48, hlt, ?_⟩
  apply Char.toNat_inj.mp
  rw [Nat.toNat_digitChar_of_lt_ten hlt]
  omega

theorem all_isDigit_cons {c : Char} {cs : List Char} (h : (c :: cs).all Char.isDigit = true) :
    (∃ d, d < 10 ∧ c = Nat.digitChar d) ∧ cs.all Char.isDigit = true := by
  rw [List.all_cons, Bool.and_eq_true] at h
  exact ⟨exists_digitChar h.1, h.2⟩

theorem ofDigitChars_cons {d : Nat} (h : d < 10) (cs : List Char) :
    Nat.ofDigitChars 10 (Nat.digitChar d :: cs) 0 =
      10 ^ cs.length * d + Nat.ofDigitChars 10 cs 0 := by
  rw [Nat.ofDigitChars_cons_digitChar_of_lt_ten h, Nat.ofDigitChars_eq_ofDigitChars_zero,
    Nat.mul_zero, Nat.zero_add]

theorem ofDigitChars_lt {ds : List Char} (h : ds.all Char.isDigit = true) :
    Nat.ofDigitChars 10 ds 0 < 10 ^ ds.length := by
  induction ds with
  | nil => simp
  | cons c cs ih =>
    obtain ⟨⟨d, hd, rfl⟩, hcs⟩ := all_isDigit_cons h
    have hrest := ih hcs
    have hdigit : 10 ^ cs.length * d ≤ 10 ^ cs.length * 9 := Nat.mul_le_mul_left _ (by omega)
    rw [ofDigitChars_cons hd, List.length_cons, Nat.pow_succ]
    omega

/-- As many digits are of the same value only if they are the same. -/
theorem eq_of_ofDigitChars_eq {as bs : List Char} (ha : as.all Char.isDigit = true)
    (hb : bs.all Char.isDigit = true) (hlen : as.length = bs.length)
    (h : Nat.ofDigitChars 10 as 0 = Nat.ofDigitChars 10 bs 0) : as = bs := by
  induction as generalizing bs with
  | nil => exact (List.eq_nil_of_length_eq_zero hlen.symm).symm
  | cons a as ih =>
    cases bs with
    | nil => simp at hlen
    | cons b bs =>
      obtain ⟨⟨d, hd, rfl⟩, has⟩ := all_isDigit_cons ha
      obtain ⟨⟨e, he, rfl⟩, hbs⟩ := all_isDigit_cons hb
      have htail : as.length = bs.length := Nat.succ.inj hlen
      have hla := ofDigitChars_lt has
      have hlb := ofDigitChars_lt hbs
      rw [ofDigitChars_cons hd, ofDigitChars_cons he, htail] at h
      rw [htail] at hla
      obtain rfl : d = e := by
        rcases Nat.lt_trichotomy d e with hde | hde | hde
        · have := Nat.mul_le_mul_left (10 ^ bs.length) (show d + 1 ≤ e from hde)
          rw [Nat.mul_succ] at this
          omega
        · exact hde
        · have := Nat.mul_le_mul_left (10 ^ bs.length) (show e + 1 ≤ d from hde)
          rw [Nat.mul_succ] at this
          omega
      rw [ih has hbs htail (by omega)]

/-- Digits without a needless zero in front are those of their number. -/
theorem toDigits_ofDigitChars {ds : List Char} (hne : ds ≠ []) (hd : ds.all Char.isDigit = true)
    (hlead : ds.head? = some '0' → ds = ['0']) :
    Nat.toDigits 10 (Nat.ofDigitChars 10 ds 0) = ds := by
  induction ds using List.reverseRecOn with
  | nil => exact absurd rfl hne
  | append_singleton ds c ih =>
    rw [List.all_append, Bool.and_eq_true] at hd
    obtain ⟨d, hlt, rfl⟩ := exists_digitChar (c := c) (by simpa using hd.2)
    have hvalue : Nat.ofDigitChars 10 (ds ++ [Nat.digitChar d]) 0 =
        10 * Nat.ofDigitChars 10 ds 0 + d := by
      rw [Nat.ofDigitChars_append, Nat.ofDigitChars_cons_digitChar_of_lt_ten hlt,
        Nat.ofDigitChars_nil]
    rw [hvalue]
    by_cases hds : ds = []
    · subst hds
      rw [Nat.ofDigitChars_nil, Nat.mul_zero, Nat.zero_add, Nat.toDigits_of_lt_base hlt,
        List.nil_append]
    · -- In front of another digit a zero would be needless.
      have hhead : ds.head? ≠ some '0' := by
        intro hzero
        have heq := hlead (by rw [List.head?_append_of_ne_nil _ hds, hzero])
        have hlen := congrArg List.length heq
        rw [List.length_append, List.length_singleton, List.length_singleton] at hlen
        have := List.length_pos_iff.mpr hds
        omega
      have hdigits := ih hds hd.1 (fun h => absurd h hhead)
      have hpos : 0 < Nat.ofDigitChars 10 ds 0 := by
        apply Nat.pos_of_ne_zero
        intro hzero
        rw [hzero] at hdigits
        rw [← hdigits] at hhead
        exact hhead rfl
      rw [← Nat.toDigits_append_toDigits (by decide) hpos hlt, hdigits,
        Nat.toDigits_of_lt_base hlt]

end Digits

theorem Layout.significant_append_zeros {ds : List Char} (h : ds.getLast? ≠ some '0') (k : Nat) :
    Layout.significant (ds ++ Layout.zeros k) = ds := by
  have hzeros : ∀ c ∈ List.replicate k '0', (c == '0') = true := by
    intro c hc
    rw [beq_iff_eq]
    exact List.eq_of_mem_replicate hc
  have hlast : ds.reverse.dropWhile (· == '0') = ds.reverse := by
    rw [← List.head?_reverse] at h
    cases hr : ds.reverse with
    | nil => rfl
    | cons c cs =>
      have hc : c ≠ '0' := by
        rintro rfl
        exact h (by rw [hr, List.head?_cons])
      rw [List.dropWhile_cons_of_neg (by simpa using hc)]
  rw [significant, zeros, List.reverse_append, List.reverse_replicate,
    List.dropWhile_append_of_pos hzeros, hlast, List.reverse_reverse]

theorem Layout.getLast?_significant (ds : List Char) :
    (Layout.significant ds).getLast? ≠ some '0' := by
  rw [significant, List.getLast?_reverse]
  intro h
  have hnot := List.head?_dropWhile_not (· == '0') ds.reverse
  rw [h] at hnot
  simp at hnot

namespace Thousandth

/-- The text of a number of thousandths. -/
def ofInt (j : Int) : Literal := literal (j < 0) j.natAbs

theorem ofInt_signed (s : Bool) (n : Nat) : ofInt (if s then -(n : Int) else n) = literal s n := by
  cases s with
  | false => simp [ofInt, literal]
  | true =>
    rcases Nat.eq_zero_or_pos n with rfl | h
    · simp [ofInt, literal]
    · simp [ofInt, literal, h, h.ne']

theorem toRat_ofInt (j : Int) : (ofInt j).decimal.toRat = j / 1000 := by
  obtain ⟨k, hk⟩ := exists_padded (j < 0) j.natAbs
  have hthousandth : (j.natAbs * (10 : ℚ) ^ (-3 : Int)) = j.natAbs / 1000 := by
    norm_num [div_eq_mul_inv]
  rw [ofInt, ← Decimal.toRat_padded _ k, hk, Decimal.toRat, hthousandth, signed_and_ne_zero,
    signed_div, signed_natAbs]

/-- Decimals to three places without needless zeros and signs. -/
structure IsCanonical (l : Literal) : Prop where
  unsigned : l.sign ≠ some .plus
  whole : l.whole ≠ [] ∧ l.whole.all Char.isDigit = true
  leading : l.whole.head? = some '0' → l.whole = ['0']
  fraction : ∀ ds, l.fraction = some ds → ds.all Char.isDigit = true ∧
    (1 ≤ ds.length ∧ ds.length ≤ 3) ∧ ds.getLast? ≠ some '0'
  exponent : l.exponent = none
  zero : l.whole = ['0'] → l.fraction = none → l.sign = none

theorem eq_zero_of_head?_toDigits {n : Nat} (h : (Nat.toDigits 10 n).head? = some '0') : n = 0 := by
  by_contra hn
  exact Layout.head?_toDigits hn h

theorem fraction_length_le (n : Nat) : (fraction n).length ≤ 3 := by
  obtain ⟨k, hk⟩ := exists_decimals n
  have hlen := congrArg List.length hk
  rw [List.length_append] at hlen
  simp only [decimals, List.length_map, List.length_cons, List.length_nil] at hlen
  omega

theorem isCanonical_ofInt (j : Int) : IsCanonical (ofInt j) where
  unsigned := by
    simp only [ofInt, literal]
    split <;> simp
  whole := ⟨Nat.toDigits_ne_nil, Layout.toDigits_all _⟩
  leading := by
    intro h
    simp only [ofInt, literal] at h ⊢
    rw [eq_zero_of_head?_toDigits h]
    rfl
  fraction := by
    intro ds h
    simp only [ofInt, literal, Option.ite_none_left_eq_some, Option.some.injEq] at h
    obtain ⟨hne, rfl⟩ := h
    refine ⟨?_, ⟨?_, fraction_length_le _⟩, ?_⟩
    · rw [fraction_eq]
      exact Layout.significant_all (decimals_all _)
    · exact List.length_pos_iff.mpr (by simpa using hne)
    · rw [fraction_eq]
      exact Layout.getLast?_significant _
  exponent := rfl
  zero := by
    intro hwhole hfraction
    have hdiv : j.natAbs / 1000 = 0 := eq_zero_of_head?_toDigits (congrArg List.head? hwhole)
    have hempty : fraction j.natAbs = [] := by
      have hgetD := fraction_getD (j < 0) j.natAbs
      rw [← hgetD, ← ofInt, hfraction]
      rfl
    have hdvd := dvd_of_fraction_eq_nil hempty
    obtain rfl : j = 0 := by omega
    rfl

/-- Digits on both sides of the point are those of some number of thousandths. -/
theorem exists_number {whole ds : List Char} (hwhole : whole ≠ [] ∧ whole.all Char.isDigit = true)
    (hlead : whole.head? = some '0' → whole = ['0']) (hall : ds.all Char.isDigit = true)
    (hle : ds.length ≤ 3) (hlast : ds.getLast? ≠ some '0') :
    ∃ n, Nat.toDigits 10 (n / 1000) = whole ∧ fraction n = ds := by
  -- The digits behind the point, filled up to three.
  have hlen : (ds ++ Layout.zeros (3 - ds.length)).length = 3 := by
    rw [List.length_append, Layout.zeros, List.length_replicate]
    omega
  have hdigits : (ds ++ Layout.zeros (3 - ds.length)).all Char.isDigit = true := by
    rw [List.all_append, hall, Layout.zeros_all, Bool.and_self]
  have hlt := ofDigitChars_lt hdigits
  rw [hlen] at hlt
  let low := Nat.ofDigitChars 10 (ds ++ Layout.zeros (3 - ds.length)) 0
  let high := Nat.ofDigitChars 10 whole 0
  refine ⟨high * 1000 + low, ?_, ?_⟩
  · rw [show (high * 1000 + low) / 1000 = high by omega]
    exact toDigits_ofDigitChars hwhole.1 hwhole.2 hlead
  · have hlow : decimals (high * 1000 + low) = ds ++ Layout.zeros (3 - ds.length) := by
      apply eq_of_ofDigitChars_eq (decimals_all _) hdigits
      · rw [hlen]
        rfl
      · rw [ofDigitChars_decimals]
        omega
    rw [fraction_eq, hlow, Layout.significant_append_zeros hlast]

namespace IsCanonical
variable {l : Literal} (h : IsCanonical l)
include h

theorem digits : (l.fraction.getD []).all Char.isDigit = true ∧
    (l.fraction.getD []).length ≤ 3 ∧ (l.fraction.getD []).getLast? ≠ some '0' ∧
    l.fraction = if (l.fraction.getD []).isEmpty then none else some (l.fraction.getD []) := by
  cases hf : l.fraction with
  | none => simp
  | some ds =>
    obtain ⟨hall, ⟨hpos, hle⟩, hlast⟩ := h.fraction ds hf
    have hne : ds ≠ [] := List.length_pos_iff.mp hpos
    exact ⟨hall, hle, hlast, by simp [hne]⟩

theorem exists_eq_ofInt : ∃ j, l = ofInt j := by
  obtain ⟨hall, hle, hlast, hfraction⟩ := h.digits
  obtain ⟨n, hwhole, hbehind⟩ := exists_number h.whole h.leading hall hle hlast
  have hsign : l.sign = if l.isNegative && n != 0 then some .minus else none := by
    cases hs : l.sign with
    | none => simp [Literal.isNegative, hs]
    | some s =>
      cases s with
      | plus => exact absurd hs h.unsigned
      | minus =>
        have hn : n ≠ 0 := by
          rintro rfl
          rw [← hbehind] at hfraction
          have hnone := h.zero hwhole.symm hfraction
          rw [hs] at hnone
          exact Option.some_ne_none _ hnone
        simp [Literal.isNegative, hs, hn]
  refine ⟨if l.isNegative then -(n : Int) else n, ?_⟩
  rw [ofInt_signed, literal, hbehind, hwhole, ← hsign, ← hfraction, ← h.exponent]

/-- A number has one canonical text at most. -/
theorem eq_ofInt {j : Int} (hvalue : l.decimal.toRat = j / 1000) : l = ofInt j := by
  obtain ⟨k, rfl⟩ := h.exists_eq_ofInt
  rw [toRat_ofInt, div_left_inj' (by norm_num), Int.cast_inj] at hvalue
  rw [hvalue]

end IsCanonical

end Thousandth
end Criteria
