import Mathlib.Data.Rat.Floor
import Mathlib.Tactic.Ring
import Criteria.Proofs.IntegerText
import Criteria.Proofs.Thousandths

/-!
# Numbers that are shown and read again

A float is shown in the nearest number of thousandths and read as the nearest float, or as an
integer if no point is left. From two to the 14 on, floats are further apart than a thousandth, so
each of them comes back. Below, they are closer, and those come back that are nearest to a number of
thousandths.
-/

namespace Criteria
set_option autoImplicit false

/-- Multiples of a fraction that are closer than the fraction are the same. -/
theorem eq_of_abs_div_sub_lt {k l : ℤ} {m : ℚ} (pos : 0 < m) (h : |k / m - l / m| < 1 / m) :
    k = l := by
  rw [← sub_div, abs_div, abs_of_pos pos, div_lt_div_iff_of_pos_right pos] at h
  have hlt : |k - l| < 1 := by exact_mod_cast h
  exact sub_eq_zero.mp (Int.abs_lt_one_iff.mp hlt)

namespace Binary

/-- Up to two to the 14 every multiple of a 1024th is a float. -/
theorem exists_toRat_eq {j : Int} (h : j.natAbs ≤ 2 ^ 24) :
    ∃ y : Single, y.isFinite = true ∧ y.toRat = j / 1024 := by
  obtain ⟨r, hr⟩ := Format.single.exists_units 139 (m := j.natAbs) h
  have htop : r < Format.single.top := by
    refine Nat.lt_of_le_of_lt (Nat.le_of_not_lt fun hlt => ?_)
      (Format.single_rankOf_lt_top (n := 2 ^ 14) (by decide))
    have hunits := Format.single.units_strictMono hlt
    rw [Format.single.units_rankOf (by decide), hr] at hunits
    have : 2 ^ 14 * Format.single.one = 2 ^ 24 * 2 ^ 139 := rfl
    omega
  refine ⟨_, isFinite_ofRank (s := decide (j < 0)) htop, ?_⟩
  have hvalue : (j.natAbs * 2 ^ 139 : ℚ) / 2 ^ 149 = j.natAbs / 1024 := by ring
  rw [toRat_ofRank htop, hr, Format.cast_single_one, Nat.cast_mul, Nat.cast_pow, Nat.cast_ofNat,
    hvalue, signed_div, signed_natAbs]

/-- From two to the 14 on every float is a multiple of a 512th. -/
theorem exists_eq_div_512 {x : Single} (hx : x.isFinite = true) (h : 2 ^ 14 ≤ |x.toRat|) :
    ∃ k : ℤ, x.toRat = k / 512 := by
  obtain ⟨s, r, rfl⟩ := exists_of_isFinite hx
  rw [toRat_finite] at h ⊢
  rw [abs_signed s (by positivity), Format.cast_single_one, le_div_iff₀ (by positivity)] at h
  have hunits : 2 ^ (Format.single.fractionBits + 140) ≤ Format.single.units r := by
    have : 2 ^ 14 * 2 ^ 149 ≤ Format.single.units r := by exact_mod_cast h
    exact this
  obtain ⟨c, hc⟩ := Format.single.two_pow_dvd_units hunits
  have hvalue : (2 ^ 140 * c : ℚ) / 2 ^ 149 = c / 512 := by ring
  rw [hc, Format.cast_single_one, Nat.cast_mul, Nat.cast_pow, Nat.cast_ofNat, hvalue, signed_div]
  cases s
  · exact ⟨c, by simp [signed]⟩
  · exact ⟨-c, by simp [signed]⟩

variable {f : Format}

/-- The number of thousandths in which a finite datum is shown. -/
def thousandths : Binary f → Int
  | .finite s r => if s then -(Thousandth.nearest f r : Int) else Thousandth.nearest f r
  | _ => 0

theorem cast_thousandths (s : Bool) (r : Fin f.top) :
    ((finite s r : Binary f).thousandths : ℚ) = signed s (Thousandth.nearest f r) := by
  cases s with
  | false => rfl
  | true => exact Int.cast_neg _

theorem abs_thousandths_sub (s : Bool) (r : Fin f.top) :
    |((finite s r : Binary f).thousandths / 1000 : ℚ) - (finite s r : Binary f).toRat| =
      |(Thousandth.nearest f r / 1000 : ℚ) - f.units r / f.one| := by
  rw [cast_thousandths, toRat_finite, ← signed_div, abs_signed_sub]

theorem abs_thousandths_sub_le {x : Binary f} (hx : x.isFinite = true) :
    |(x.thousandths / 1000 : ℚ) - x.toRat| ≤ 1 / 2000 := by
  obtain ⟨s, r, rfl⟩ := exists_of_isFinite hx
  rw [abs_thousandths_sub]
  exact Thousandth.abs_nearest_sub_le f r

end Binary

namespace Value

/-- The exact value of a number. -/
def toRat : Value → ℚ
  | integer n => n.toInt
  | float x => x.toRat
  | _ => 0

/-- A value as which a rational may be read: an integer is read exactly, and otherwise the nearest
float stands in. -/
def IsNearest (v : Value) (q : ℚ) : Prop :=
  match v with
  | integer n => (n.toInt : ℚ) = q
  | float x => x.IsNearest q
  | _ => False

namespace IsNearest
variable {v : Value} {q : ℚ} (h : v.IsNearest q)
include h

theorem isFiniteNumber : v.isFiniteNumber = true := by
  cases v with
  | integer => rfl
  | float x => exact h.finite
  | absent | boolean | text => exact h.elim

theorem nearest {y : Single} (hy : y.isFinite = true) : |v.toRat - q| ≤ |y.toRat - q| := by
  cases v with
  | integer n =>
    rw [toRat, show (n.toInt : ℚ) = q from h, sub_self, abs_zero]
    exact abs_nonneg _
  | float x => exact Binary.IsNearest.nearest h y hy
  | absent | boolean | text => exact h.elim

/-- Two to the 14 is a float, so what is nearest to a number beyond it is not on this side. -/
theorem two_pow_le_abs (hq : 2 ^ 14 ≤ |q|) : 2 ^ 14 ≤ |v.toRat| := by
  rcases le_abs'.mp hq with hq | hq
  · obtain ⟨y, hy, hvalue⟩ := Binary.exists_toRat_eq (j := -2 ^ 24) (by decide)
    have hnear := h.nearest hy
    rw [hvalue, show (((-2 ^ 24 : ℤ) : ℚ) / 1024 : ℚ) = -2 ^ 14 by norm_num,
      abs_of_nonneg (sub_nonneg.mpr hq), abs_sub_le_iff] at hnear
    exact le_abs'.mpr (.inl (by linarith [hnear.1]))
  · obtain ⟨y, hy, hvalue⟩ := Binary.exists_toRat_eq (j := 2 ^ 24) (by decide)
    have hnear := h.nearest hy
    rw [hvalue, show (((2 ^ 24 : ℤ) : ℚ) / 1024 : ℚ) = 2 ^ 14 by norm_num,
      abs_of_nonpos (sub_nonpos.mpr hq), abs_sub_le_iff] at hnear
    exact le_abs'.mpr (.inr (by linarith [hnear.2]))

theorem exists_eq_div_512 (hv : 2 ^ 14 ≤ |v.toRat|) : ∃ k : ℤ, v.toRat = k / 512 := by
  cases v with
  | integer n => exact ⟨512 * n.toInt, by simp [toRat]⟩
  | float x => exact Binary.exists_eq_div_512 h.finite hv
  | absent | boolean | text => exact h.elim

/-- Up to two to the 14 a float is less than half a thousandth away. -/
theorem abs_sub_le (hq : |q| ≤ 2 ^ 14) : |v.toRat - q| ≤ 1 / 2048 := by
  have hround := abs_sub_round (q * 1024)
  have hle : (round (q * 1024)).natAbs ≤ 2 ^ 24 := by
    obtain ⟨hql, hqu⟩ := abs_le.mp hq
    obtain ⟨hrl, hru⟩ := abs_le.mp hround
    have hlo : (-(2 ^ 24 + 1) : ℚ) < round (q * 1024) := by linarith
    have hhi : (round (q * 1024) : ℚ) < 2 ^ 24 + 1 := by linarith
    have hlo' : -(2 ^ 24 + 1) < round (q * 1024) := by exact_mod_cast hlo
    have hhi' : round (q * 1024) < 2 ^ 24 + 1 := by exact_mod_cast hhi
    omega
  obtain ⟨y, hy, hvalue⟩ := Binary.exists_toRat_eq hle
  have hdist : y.toRat - q = -(q * 1024 - round (q * 1024)) / 1024 := by
    rw [hvalue]
    ring
  have hnear := h.nearest hy
  rw [hdist, abs_div, abs_neg, Nat.abs_ofNat] at hnear
  linarith

/-- Values nearest to one number are equal, also an integer and a float up to two to the 14. -/
theorem toRat_eq {x : Single} (hx : x.IsNearest q) (hq : |q| ≤ 2 ^ 14) : v.toRat = x.toRat := by
  cases v with
  | integer n =>
    obtain rfl : (n.toInt : ℚ) = q := h
    have hj : (1024 * n.toInt).natAbs ≤ 2 ^ 24 := by
      have : |n.toInt| ≤ 2 ^ 14 := by exact_mod_cast hq
      have := abs_le.mp this
      omega
    obtain ⟨y, hy, hvalue⟩ := Binary.exists_toRat_eq hj
    have hexact : y.toRat = n.toInt := by
      rw [hvalue, Int.cast_mul]
      norm_num
    exact (hx.toRat_eq_of_exact hy hexact).symm
  | float y => exact Binary.IsNearest.toRat_eq h hx
  | absent | boolean | text => exact h.elim

end IsNearest

section Thousandths
variable {v : Value} {j : ℤ} {x : Single} (hv : v.IsNearest (j / 1000))
  (hj : |(j / 1000 : ℚ) - x.toRat| ≤ 1 / 2000)
include hv hj

theorem abs_sub_le_of_thousandths (hx : x.isFinite = true) :
    |v.toRat - x.toRat| ≤ 1 / 1000 := by
  have hnear := hv.nearest hx
  rw [abs_sub_comm x.toRat] at hnear
  calc |v.toRat - x.toRat| ≤ |v.toRat - j / 1000| + |j / 1000 - x.toRat| := abs_sub_le _ _ _
    _ ≤ 1 / 2000 + 1 / 2000 := add_le_add (hnear.trans hj) hj
    _ = 1 / 1000 := by norm_num

theorem toRat_eq_of_two_pow_le (hx : x.isFinite = true) (hfar : 2 ^ 14 ≤ |x.toRat|) :
    v.toRat = x.toRat := by
  have hq : 2 ^ 14 ≤ |(j / 1000 : ℚ)| := by
    have habs := abs_sub_abs_le_abs_sub x.toRat (j / 1000)
    rw [abs_sub_comm x.toRat] at habs
    rw [abs_div, Nat.abs_ofNat] at habs ⊢
    -- The bound is itself a number of thousandths, so half of one does not lead across it.
    have hlt : (2 ^ 14 * 1000 : ℚ) < |(j : ℚ)| + 1 := by linarith
    have hlt' : 2 ^ 14 * 1000 < |j| + 1 := by exact_mod_cast hlt
    have hle : (2 ^ 14 * 1000 : ℚ) ≤ |(j : ℚ)| := by exact_mod_cast Int.lt_add_one_iff.mp hlt'
    linarith
  -- Both are multiples of a 512th, and a thousandth is less than that.
  obtain ⟨k, hk⟩ := hv.exists_eq_div_512 (hv.two_pow_le_abs hq)
  obtain ⟨l, hl⟩ := Binary.exists_eq_div_512 hx hfar
  have hclose := abs_sub_le_of_thousandths hv hj hx
  rw [hk, hl] at hclose ⊢
  rw [eq_of_abs_div_sub_lt (by norm_num) (hclose.trans_lt (by norm_num))]

theorem toRat_eq_of_isNearest {k : ℤ} (hk : x.IsNearest (k / 1000)) (hnear : |x.toRat| < 2 ^ 14) :
    v.toRat = x.toRat := by
  have hx : (float x).IsNearest (k / 1000) := hk
  have hq : |(k / 1000 : ℚ)| ≤ 2 ^ 14 := by
    by_contra hfar
    exact not_le.mpr hnear (hx.two_pow_le_abs (le_of_not_ge hfar))
  -- The float is so close to its number of thousandths that no other one is nearest to it.
  have hclose : |(j / 1000 : ℚ) - k / 1000| ≤ 1 / 2000 + 1 / 2048 :=
    (abs_sub_le _ x.toRat _).trans (add_le_add hj (hx.abs_sub_le hq))
  obtain rfl : j = k := eq_of_abs_div_sub_lt (by norm_num) (hclose.trans_lt (by norm_num))
  exact hv.toRat_eq hk hq

end Thousandths

/-- The text of a number of thousandths is read as the nearest value. -/
theorem isNearest_ofChars_literal (s : Bool) {n : Nat}
    (htop : Format.single.nearestRank (n * Format.single.one) 1000 < Format.single.top) :
    (ofChars (Thousandth.literal s n).chars).IsNearest (signed s (n / 1000)) := by
  have hwell := Thousandth.literal_wellFormed s n
  rw [ofChars_literal hwell]
  cases hint : (Thousandth.literal s n).int32? with
  | some m =>
    obtain ⟨i, hi, hm⟩ := Option.bind_eq_some_iff.mp hint
    rw [infer_literal_integer hwell hint, IsNearest, toInt_of_int32? hm]
    exact Thousandth.cast_of_integer? hi
  | none =>
    have hone : (Format.single.one : ℚ) ≠ 0 := by exact_mod_cast Format.single.one_pos.ne'
    have hnear := Binary.isNearest_ofUnits (by decide) (s && n != 0) (n * Format.single.one)
      (show 0 < 1000 by decide) htop
    rw [← Thousandth.literal_toBinary (by decide), Nat.cast_mul, div_right_comm,
      mul_div_cancel_right₀ _ hone, Nat.cast_ofNat, Thousandth.signed_and_ne_zero] at hnear
    rwa [infer_literal_float hwell hint (by rw [Literal.single?, if_pos hnear.finite])]

theorem isNearest_ofChars_shown {x : Single} (hx : x.isFinite = true) :
    (ofChars (float x).shown).IsNearest (x.thousandths / 1000) := by
  obtain ⟨s, r, rfl⟩ := Binary.exists_of_isFinite hx
  rw [Binary.cast_thousandths, ← signed_div]
  exact isNearest_ofChars_literal s (Thousandth.nearestRank_lt_top r.isLt)

theorem shown_numeral {v : Value} (h : v.isFiniteNumber = true) : ∀ c ∈ v.shown, isNumeral c := by
  cases v with
  | integer n => exact (Literal.ofInt_wellFormed n.toInt).chars_numeral
  | float x =>
    obtain ⟨s, r, rfl⟩ := Binary.exists_of_isFinite h
    exact (Thousandth.literal_wellFormed s _).chars_numeral
  | absent | boolean | text => simp [isFiniteNumber] at h

/-- What may come back for a number that is shown and read again. -/
def ComesBackAs : Value → Value → Prop
  | float x, v => v.isFiniteNumber = true ∧ |v.toRat - x.toRat| ≤ 1 / 1000 ∧
      (16384 ≤ |x.toRat| ∨ (∃ k : ℤ, x.IsNearest (k / 1000)) → v.toRat = x.toRat)
  | v, w => w = v

theorem ComesBackAs.isFiniteNumber {v w : Value} (h : v.ComesBackAs w)
    (hv : v.isFiniteNumber = true) : w.isFiniteNumber = true := by
  cases v with
  | float x => exact h.1
  | integer n =>
    obtain rfl : w = integer n := h
    exact hv
  | absent | boolean | text => simp [Value.isFiniteNumber] at hv

theorem comesBackAs_ofChars_shown {v : Value} (h : v.isFiniteNumber = true) :
    v.ComesBackAs (ofChars v.shown) := by
  cases v with
  | integer n => exact ofChars_integer n
  | float x =>
    have hread := isNearest_ofChars_shown h
    have hj := Binary.abs_thousandths_sub_le h
    refine ⟨hread.isFiniteNumber, abs_sub_le_of_thousandths hread hj h, ?_⟩
    intro hexact
    rcases le_or_gt (2 ^ 14) |x.toRat| with hfar | hnear
    · exact toRat_eq_of_two_pow_le hread hj h hfar
    · rcases hexact with hfar | ⟨k, hk⟩
      · linarith
      · exact toRat_eq_of_isNearest hread hj hk hnear
  | absent | boolean | text => simp [isFiniteNumber] at h

end Value

namespace Criterion

/-- Same form, same operators, and the values that may come back. -/
inductive ComesBackAs : Criterion → Criterion → Prop where
  | single (op : Operator) {v w : Value} (h : v.ComesBackAs w) :
      ComesBackAs (.single op v) (.single op w)
  | range (lowerOp upperOp : Operator) {v w v' w' : Value} (hl : v.ComesBackAs v')
      (hu : w.ComesBackAs w') :
      ComesBackAs (.range ⟨lowerOp, v⟩ ⟨upperOp, w⟩) (.range ⟨lowerOp, v'⟩ ⟨upperOp, w'⟩)

theorem isNumberText_shown {v : Value} (h : v.isFiniteNumber = true) : IsNumberText v.shown :=
  Value.isNumber_of_isFiniteNumber ((Value.comesBackAs_ofChars_shown h).isFiniteNumber h)

/-- A criterion about numbers keeps its form and its operators when it is shown and read again.
Integers come back, and floats come back to a thousandth, exactly so if they are large or nearest to
a number of thousandths. -/
theorem parse_display_comesBackAs {c : Criterion}
    (h : ∀ v ∈ c.operands, v.isFiniteNumber = true) : c.ComesBackAs (parse c.display) := by
  rw [parse, display, String.toList_ofList]
  cases c with
  | single op v =>
    have hv := h v List.mem_cons_self
    have hparse : ofChars (single op v).shown = single op (.ofChars v.shown) :=
      ofChars_symbol_append ((isNumberText_shown hv).fuses op)
    rw [hparse]
    exact .single op (Value.comesBackAs_ofChars_shown hv)
  | range lower upper =>
    have hl := h lower.value (by simp [operands])
    have hu := h upper.value (by simp [operands])
    rw [shown, ofChars_charsBy_range (isNumberText_shown hl) (isNumberText_shown hu)
      (Value.shown_numeral hl) (Value.shown_numeral hu)]
    exact .range lower.op upper.op (Value.comesBackAs_ofChars_shown hl)
      (Value.comesBackAs_ofChars_shown hu)

/-- A sixteenth, halfway between two thousandths, under an integer bound. -/
theorem sixteenth_comesBackAs :
    (∀ v ∈ (range ⟨.greaterEqual, .float (.ofUnits false Format.single.one 16)⟩
      ⟨.quotient, .integer (-7)⟩).operands, v.isFiniteNumber = true) ∧
    (range ⟨.greaterEqual, .float (.ofUnits false Format.single.one 16)⟩
      ⟨.quotient, .integer (-7)⟩).ComesBackAs
      (parse (range ⟨.greaterEqual, .float (.ofUnits false Format.single.one 16)⟩
        ⟨.quotient, .integer (-7)⟩).display) := by
  have h : ∀ v ∈ (range ⟨.greaterEqual, .float (.ofUnits false Format.single.one 16)⟩
      ⟨.quotient, .integer (-7)⟩).operands, v.isFiniteNumber = true := by decide
  exact ⟨h, parse_display_comesBackAs h⟩

/-- A sixteenth is shown as 62 thousandths. -/
example : (range ⟨.greaterEqual, .float (.ofUnits false Format.single.one 16)⟩
    ⟨.quotient, .integer (-7)⟩).display = "0.062<=x%=-7" := by decide

end Criterion
end Criteria
