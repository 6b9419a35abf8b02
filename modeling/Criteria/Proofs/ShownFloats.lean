import Criteria.Proofs.CanonicalThousandths
import Criteria.Proofs.ContiguousIntegers
import Criteria.Proofs.Reload
import Criteria.Proofs.ShownNumbers

/-!
# A float is shown in the nearest number of thousandths

Of all numbers of thousandths the shown one is nearest to the float, or the even one of two that are
equally near. So it is determined by the exact value, a greater float is never shown as a lesser
number, and the text is the only canonical one of that number. What the text is read as has the same
number of thousandths nearest to it, so showing it changes nothing any more.
-/

namespace Criteria
set_option autoImplicit false

/-- A number of thousandths to which no other one is preferred, ties going to the even one. -/
structure IsNearestThousandth (j : Int) (q : ℚ) : Prop where
  nearest : ∀ k : Int, |(j / 1000 : ℚ) - q| ≤ |(k / 1000 : ℚ) - q|
  even : ∀ k : Int, k ≠ j → |(k / 1000 : ℚ) - q| = |(j / 1000 : ℚ) - q| → j % 2 = 0

namespace IsNearestThousandth
variable {j k : Int} {p q : ℚ}

/-- Another number of thousandths is a whole one away. -/
theorem one_le_abs_add_abs (h : k ≠ j) :
    1 / 1000 ≤ |(j / 1000 : ℚ) - q| + |(k / 1000 : ℚ) - q| := by
  have hcast : (1 : ℚ) ≤ |(j : ℚ) - k| := by
    have hint : 1 ≤ |j - k| := Int.one_le_abs (sub_ne_zero.mpr h.symm)
    exact_mod_cast hint
  have hsub : |(j / 1000 : ℚ) - k / 1000| = |(j : ℚ) - k| / 1000 := by
    rw [← sub_div, abs_div, Nat.abs_ofNat]
  have htriangle := abs_sub_le (j / 1000 : ℚ) q (k / 1000)
  rw [hsub, abs_sub_comm q] at htriangle
  linarith

/-- What is within half a thousandth is nearest, if it is even where it is half of one away. -/
theorem of_abs_le (h : |(j / 1000 : ℚ) - q| ≤ 1 / 2000)
    (heven : |(j / 1000 : ℚ) - q| = 1 / 2000 → j % 2 = 0) : IsNearestThousandth j q where
  nearest := by
    intro k
    by_cases hk : k = j
    · rw [hk]
    · have := one_le_abs_add_abs (q := q) hk
      linarith
  even := by
    intro k hk heq
    have := one_le_abs_add_abs (q := q) hk
    exact heven (by linarith)

theorem of_abs_lt (h : |(j / 1000 : ℚ) - q| < 1 / 2000) : IsNearestThousandth j q :=
  of_abs_le h.le fun heq => absurd heq h.ne

theorem intCast (n : Int) : IsNearestThousandth (1000 * n) n := by
  apply of_abs_lt
  rw [Int.cast_mul, Int.cast_ofNat, mul_div_cancel_left₀ _ (by norm_num), sub_self, abs_zero]
  norm_num

/-- A number is not on the far side of the midpoint to a lesser number of thousandths. -/
theorem midpoint_le (hj : IsNearestThousandth j q) (h : k < j) : ((j + k) / 2000 : ℚ) ≤ q := by
  have hkj : (k : ℚ) < j := by exact_mod_cast h
  have hnear := hj.nearest k
  by_contra hlt
  rw [abs_of_pos (show 0 < (j / 1000 : ℚ) - q by linarith)] at hnear
  have hcloser : |(k / 1000 : ℚ) - q| < j / 1000 - q := abs_lt.mpr ⟨by linarith, by linarith⟩
  linarith

theorem le_midpoint (hj : IsNearestThousandth j q) (h : j < k) : q ≤ ((j + k) / 2000 : ℚ) := by
  have hjk : (j : ℚ) < k := by exact_mod_cast h
  have hnear := hj.nearest k
  by_contra hlt
  rw [abs_of_neg (show (j / 1000 : ℚ) - q < 0 by linarith)] at hnear
  have hcloser : |(k / 1000 : ℚ) - q| < -(j / 1000 - q) := abs_lt.mpr ⟨by linarith, by linarith⟩
  linarith

/-- A greater number has no lesser number of thousandths nearest to it. -/
theorem le_of_le (hj : IsNearestThousandth j p) (hk : IsNearestThousandth k q) (h : p ≤ q) :
    j ≤ k := by
  by_contra hlt
  have hkj : k < j := Int.not_le.mp hlt
  have hp := hj.midpoint_le hkj
  have hq := hk.le_midpoint hkj
  rcases Int.lt_or_eq_of_le (Int.add_one_le_iff.mpr hkj) with hfar | hnext
  · -- The next number of thousandths stands between them, and its midpoint is beyond the number.
    have hmid := hj.midpoint_le hfar
    rw [Int.cast_add, Int.cast_one] at hmid
    linarith
  · -- Both numbers are halfway between neighbours, of which only one is even.
    subst hnext
    rw [Int.cast_add, Int.cast_one] at hp hq
    have hp' : p = (2 * k + 1) / 2000 := by linarith
    have hq' : q = (2 * k + 1) / 2000 := by linarith
    have hlow : |(k / 1000 : ℚ) - (2 * k + 1) / 2000| = 1 / 2000 := by
      rw [show (k / 1000 : ℚ) - (2 * k + 1) / 2000 = -(1 / 2000) by ring, abs_neg]
      norm_num
    have hhigh : |((k + 1 : Int) / 1000 : ℚ) - (2 * k + 1) / 2000| = 1 / 2000 := by
      rw [Int.cast_add, Int.cast_one, show ((k + 1) / 1000 : ℚ) - (2 * k + 1) / 2000 = 1 / 2000 by
        ring]
      norm_num
    have hjeven := hj.even k hkj.ne (by rw [hp', hlow, hhigh])
    have hkeven := hk.even (k + 1) hkj.ne' (by rw [hq', hlow, hhigh])
    omega

theorem unique (hj : IsNearestThousandth j q) (hk : IsNearestThousandth k q) : j = k :=
  Int.le_antisymm (hj.le_of_le hk le_rfl) (hk.le_of_le hj le_rfl)

/-- Rounding to thousandths does not lead across an integer. -/
theorem abs_div_le {n : Int} (hj : IsNearestThousandth j q) (h : |q| ≤ n) :
    |(j / 1000 : ℚ)| ≤ n := by
  obtain ⟨hlo, hhi⟩ := abs_le.mp h
  have hupper := hj.le_of_le (intCast n) hhi
  have hlower := (intCast (-n)).le_of_le hj (by rwa [Int.cast_neg])
  have hupper' : (j : ℚ) ≤ 1000 * n := by exact_mod_cast hupper
  have hlower' : (1000 * -n : ℚ) ≤ j := by exact_mod_cast hlower
  rw [abs_le]
  constructor <;> linarith

end IsNearestThousandth

namespace Thousandth

/-- A number of thousandths without a fraction has the text of the integer. -/
theorem ofInt_mul (n : Int) : ofInt (1000 * n) = Literal.ofInt n := by
  have hneg : decide (1000 * n < 0) = decide (n < 0) := decide_eq_decide.mpr (by omega)
  have hfraction : fraction (1000 * n.natAbs) = [] := by
    have hdigits : (1000 * n.natAbs) / 100 % 10 = 0 ∧ (1000 * n.natAbs) / 10 % 10 = 0 ∧
        (1000 * n.natAbs) % 10 = 0 := by omega
    rw [fraction, hdigits.1, hdigits.2.1, hdigits.2.2]
    rfl
  have hnonzero : (decide (n < 0) && 1000 * n.natAbs != 0) = decide (n < 0) := by
    by_cases h : n < 0
    · have hne : 1000 * n.natAbs ≠ 0 := by omega
      rw [bne_iff_ne.mpr hne, Bool.and_true]
    · rw [decide_eq_false h, Bool.false_and]
  have habs : (1000 * n).natAbs = 1000 * n.natAbs := Int.natAbs_mul 1000 n
  rw [ofInt, literal, habs, hneg, hnonzero, hfraction, Nat.mul_div_cancel_left _ (by decide)]
  simp [Literal.ofInt]

theorem ofInt_wellFormed (j : Int) : (ofInt j).WellFormed := literal_wellFormed _ _

/-- A canonical text of a number of thousandths. -/
def Writes (t : String) (j : Int) : Prop :=
  ∃ l : Literal, l.chars = t.toList ∧ IsCanonical l ∧ l.decimal.toRat = j / 1000

theorem writes_iff {t : String} {j : Int} : Writes t j ↔ t = String.ofList (ofInt j).chars := by
  constructor
  · rintro ⟨l, hchars, hcanonical, hvalue⟩
    rw [← hcanonical.eq_ofInt hvalue, hchars, String.ofList_toList]
  · rintro rfl
    exact ⟨ofInt j, String.toList_ofList.symm, isCanonical_ofInt j, toRat_ofInt j⟩

end Thousandth

namespace Binary

theorem isNearestThousandth {f : Format} {x : Binary f} (hx : x.isFinite = true) :
    IsNearestThousandth x.thousandths x.toRat := by
  apply IsNearestThousandth.of_abs_le (abs_thousandths_sub_le hx)
  obtain ⟨s, r, rfl⟩ := exists_of_isFinite hx
  rw [abs_thousandths_sub]
  intro hhalfway
  have heven := Thousandth.nearest_mod_two_of_halfway hhalfway
  cases s <;> simp only [thousandths, if_true, Bool.false_eq_true, if_false] <;> omega

theorem shown_eq {f : Format} {x : Binary f} (hx : x.isFinite = true) :
    x.shown = (Thousandth.ofInt x.thousandths).chars := by
  obtain ⟨s, r, rfl⟩ := exists_of_isFinite hx
  rw [thousandths, Thousandth.ofInt_signed]
  rfl

end Binary

namespace Value

/-- A finite number is shown in the thousandths nearest to it, also an integer. -/
theorem display_eq {v : Value} (hv : v.isFiniteNumber = true) {j : Int}
    (hj : IsNearestThousandth j v.toRat) : v.display = String.ofList (Thousandth.ofInt j).chars := by
  cases v with
  | integer n =>
    rw [hj.unique (IsNearestThousandth.intCast n.toInt), Thousandth.ofInt_mul]
    rfl
  | float x =>
    rw [hj.unique (Binary.isNearestThousandth hv), ← Binary.shown_eq hv]
    rfl
  | absent | boolean | text => simp [isFiniteNumber] at hv

theorem scan?_display {x : Single} (hx : x.isFinite = true) :
    Literal.scan? (float x).display.toList = some (Thousandth.ofInt x.thousandths) := by
  rw [display, String.toList_ofList, shown, Binary.shown_eq hx]
  exact Literal.scan?_chars (Thousandth.ofInt_wellFormed _)

/-- A finite float is shown as the canonical text of the nearest number of thousandths and as no
other text. What is shown for a greater float is no lesser number, and floats with the same nearest
number of thousandths have the same text. -/
theorem float_display_canonical {x : Single} (hx : x.isFinite = true) :
    (∀ t, (float x).display = t ↔ ∃ j, IsNearestThousandth j x.toRat ∧ Thousandth.Writes t j) ∧
    (∀ y : Single, x.le y = true → y.isFinite = true →
      ∃ l m, Literal.scan? (float x).display.toList = some l ∧
        Literal.scan? (float y).display.toList = some m ∧ l.decimal.toRat ≤ m.decimal.toRat) ∧
    ∀ (y : Single) (j : Int), y.isFinite = true → IsNearestThousandth j x.toRat →
      IsNearestThousandth j y.toRat → (float x).display = (float y).display := by
  have hfinite : (float x).isFiniteNumber = true := hx
  have hnear := Binary.isNearestThousandth hx
  refine ⟨?_, ?_, ?_⟩
  · intro t
    constructor
    · rintro rfl
      exact ⟨x.thousandths, hnear, Thousandth.writes_iff.mpr (display_eq hfinite hnear)⟩
    · rintro ⟨j, hj, hwrites⟩
      rw [Thousandth.writes_iff.mp hwrites]
      exact display_eq hfinite hj
  · intro y hle hy
    refine ⟨_, _, scan?_display hx, scan?_display hy, ?_⟩
    have hvalue : x.toRat ≤ y.toRat := by
      have hunits := Binary.signedUnits_le_of_le hx hy hle
      rw [Binary.toRat, Binary.toRat]
      exact div_le_div_of_nonneg_right (by exact_mod_cast hunits) (by positivity)
    have hj := hnear.le_of_le (Binary.isNearestThousandth hy) hvalue
    rw [Thousandth.toRat_ofInt, Thousandth.toRat_ofInt]
    exact div_le_div_of_nonneg_right (by exact_mod_cast hj) (by norm_num)
  · intro y j hy hjx hjy
    have hfinitey : (float y).isFiniteNumber = true := hy
    rw [display_eq hfinite hjx, display_eq hfinitey hjy]

/-- A sixteenth is halfway between 62 and 63 thousandths. It is shown as the even number, like the
float below it, and as no more than one. -/
theorem float_display_sixteenth :
    (Binary.ofRank false 0x3d800000 : Single).isFinite = true ∧
    (∃ j, IsNearestThousandth j (Binary.ofRank false 0x3d800000 : Single).toRat ∧
      Thousandth.Writes "0.062" j) ∧
    (∃ l m, Literal.scan? (float (.ofRank false 0x3d800000)).display.toList = some l ∧
      Literal.scan? (float (.ofInt 1)).display.toList = some m ∧
      l.decimal.toRat ≤ m.decimal.toRat) ∧
    (float (.ofRank false 0x3d800000)).display = (float (.ofRank false 0x3d7fffff)).display := by
  have hx : (Binary.ofRank false 0x3d800000 : Single).isFinite = true := rfl
  have hy : (Binary.ofRank false 0x3d7fffff : Single).isFinite = true := rfl
  have hjx := Binary.isNearestThousandth hx
  have hjy := Binary.isNearestThousandth hy
  have hcountx : (Binary.ofRank false 0x3d800000 : Single).thousandths = 62 := by decide
  have hcounty : (Binary.ofRank false 0x3d7fffff : Single).thousandths = 62 := by decide
  rw [hcountx] at hjx
  rw [hcounty] at hjy
  obtain ⟨htext, horder, hsame⟩ := float_display_canonical hx
  refine ⟨hx, ?_, ?_, ?_⟩
  · exact (htext "0.062").mp (by decide)
  · exact horder (.ofInt 1) (by decide) (by decide)
  · exact hsame _ 62 hy hjx hjy

/-- What the text of a float is read as has the same number of thousandths nearest to it. -/
theorem isNearestThousandth_ofChars_shown {x : Single} (hx : x.isFinite = true) :
    IsNearestThousandth x.thousandths (ofChars (float x).shown).toRat := by
  have hread := isNearest_ofChars_shown hx
  have hnear := Binary.isNearestThousandth hx
  rcases le_or_gt (2 ^ 14) |x.toRat| with hfar | hclose
  · rwa [toRat_eq_of_two_pow_le hread (Binary.abs_thousandths_sub_le hx) hx hfar]
  · -- The number of thousandths is not beyond two to the 14 either, and floats are dense there.
    have hcast : ((2 ^ 14 : Int) : ℚ) = 2 ^ 14 := by rw [Int.cast_pow, Int.cast_ofNat]
    have hbound : |(x.thousandths / 1000 : ℚ)| ≤ 2 ^ 14 := by
      rw [← hcast] at hclose ⊢
      exact hnear.abs_div_le hclose.le
    apply IsNearestThousandth.of_abs_lt
    rw [abs_sub_comm]
    refine (hread.abs_sub_le hbound).trans_lt ?_
    norm_num

theorem exact_eq_shown {v : Value} (h : v.kind ≠ .float) : v.exact = v.shown := by
  cases v with
  | float => exact absurd rfl h
  | absent | integer | boolean | text => rfl

/-- Showing what a text spells is a normal form: reading and showing it again changes nothing. The
kind stays as well, unless a float was shown as an integer, and that does happen. -/
theorem display_parse_display :
    (∀ t : String, (parse (parse t).display).display = (parse t).display ∧
      ((parse (parse t).display).kind = (parse t).kind ∨
        (parse t).kind = .float ∧ (parse (parse t).display).kind = .integer)) ∧
    ∃ t : String, (parse t).kind = .float ∧ (parse (parse t).display).kind = .integer := by
  refine ⟨?_, "2.0", by decide⟩
  intro t
  have hspells := spellsItself_ofChars t.toList
  have hagain (v : Value) : parse v.display = ofChars v.shown := by
    rw [parse, display, String.toList_ofList]
  rw [hagain, parse]
  generalize ofChars t.toList = v at hspells
  by_cases hkind : v.kind = .float
  · obtain ⟨x, rfl⟩ : ∃ x, v = float x := by
      cases v with
      | float x => exact ⟨x, rfl⟩
      | absent | integer | boolean | text => cases hkind
    have hx : (float x).isFiniteNumber = true := hspells
    have hfinite := (isNearest_ofChars_shown hx).isFiniteNumber
    refine ⟨?_, ?_⟩
    · rw [display_eq hfinite (isNearestThousandth_ofChars_shown hx),
        display_eq hx (Binary.isNearestThousandth hx)]
    · cases hread : ofChars (float x).shown with
      | integer => exact .inr ⟨rfl, rfl⟩
      | float => exact .inl rfl
      | absent | boolean | text => simp [hread, isFiniteNumber] at hfinite
  · have hread := ofChars_exact hspells
    rw [exact_eq_shown hkind] at hread
    rw [hread]
    exact ⟨rfl, .inl rfl⟩

end Value
end Criteria
