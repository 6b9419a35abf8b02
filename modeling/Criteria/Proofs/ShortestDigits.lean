import Mathlib.Tactic.Ring
import Criteria.Proofs.DecimalValues
import Criteria.Proofs.ExactDigits

/-!
# What is shortest

A decimal is shortest for a datum if it is read as the datum, no decimal with fewer digits is, and none
with as few digits is nearer to the datum. What lies between two decimals that are read as one datum is
read as it, too. So a shortest decimal is next to the datum on the grid of its last digit, and if any
decimal with few digits is read as the datum, then one of the neighbours of the datum on a grid is.
-/

namespace Criteria
set_option autoImplicit false

namespace Decimal

/-- A decimal can be written with some number of digits, not counting zeros at the end. -/
def HasDigits (d : Decimal) (width : Nat) : Prop :=
  ∃ (m : Nat) (e : Int), m < 10 ^ width ∧ d.magnitude = m * 10 ^ e

theorem HasDigits.mono {d : Decimal} {v w : Nat} (h : d.HasDigits v) (hvw : v ≤ w) :
    d.HasDigits w := by
  obtain ⟨m, e, hm, hd⟩ := h
  exact ⟨m, e, Nat.lt_of_lt_of_le hm (Nat.pow_le_pow_right (by omega) hvw), hd⟩

theorem HasDigits.pos {d : Decimal} {width : Nat} (h : d.HasDigits width) (hd : d.magnitude ≠ 0) :
    0 < width := by
  obtain ⟨m, e, hm, hvalue⟩ := h
  refine Nat.pos_of_ne_zero ?_
  rintro rfl
  obtain rfl : m = 0 := by omega
  rw [Nat.cast_zero, zero_mul] at hvalue
  exact hd hvalue

theorem exists_least_hasDigits (d : Decimal) :
    ∃ width, d.HasDigits width ∧ ∀ v, d.HasDigits v → width ≤ v := by
  classical
  have hsome : ∃ width, d.HasDigits width :=
    ⟨d.digits, d.digits, d.exponent, Nat.lt_pow_self (by omega), rfl⟩
  exact ⟨Nat.find hsome, Nat.find_spec hsome, fun v hv => Nat.find_min' hsome hv⟩

end Decimal

/-- A shortest decimal of a datum. -/
structure Binary.IsShortest {f : Format} (x : Binary f) (d : Decimal) : Prop where
  reads : d.toBinary f = x
  fewest : ∀ e : Decimal, e.toBinary f = x → ∀ width, e.HasDigits width → d.HasDigits width
  nearest : ∀ e : Decimal, e.toBinary f = x → (∀ width, d.HasDigits width → e.HasDigits width) →
    |d.toRat - x.toRat| ≤ |e.toRat - x.toRat|

namespace Decimal
variable (f : Format)

/-- The magnitude in tens to the minus `fineness`, which the magnitudes of the format are whole
numbers of. -/
def expanded (d : Decimal) : ℚ := d.magnitude * 10 ^ f.fineness

/-- The points of the grid of `10 ^ drop`, in the same unit. -/
def onGrid (s : Bool) (k drop : Nat) : Decimal := ⟨s, k, (drop : Int) - f.fineness⟩

theorem expanded_onGrid (s : Bool) (k drop : Nat) :
    (onGrid f s k drop).expanded f = (k * 10 ^ drop : Nat) := by
  have hten : (10 : ℚ) ^ f.fineness ≠ 0 := pow_ne_zero _ (by norm_num)
  rw [expanded, magnitude, onGrid, zpow_sub₀ (by norm_num), zpow_natCast, zpow_natCast, mul_assoc,
    div_mul_cancel₀ _ hten]
  push_cast
  rfl

variable {f} {d e : Decimal}

theorem hasDigits_iff {width : Nat} :
    d.HasDigits width ↔ ∃ (m : Nat) (t : Int), m < 10 ^ width ∧ d.expanded f = m * 10 ^ t := by
  have hten : (10 : ℚ) ≠ 0 := by norm_num
  constructor
  · rintro ⟨m, e, hm, hd⟩
    refine ⟨m, e + f.fineness, hm, ?_⟩
    rw [expanded, hd, zpow_add₀ hten, zpow_natCast, mul_assoc]
  · rintro ⟨m, t, hm, hd⟩
    refine ⟨m, t - f.fineness, hm, ?_⟩
    rw [zpow_sub₀ hten, zpow_natCast, ← mul_div_assoc, ← hd, expanded, mul_div_cancel_right₀]
    exact pow_ne_zero _ hten

theorem hasDigits_onGrid {s : Bool} {k drop width : Nat} (hk : k ≤ 10 ^ width) (hw : 0 < width) :
    (onGrid f s k drop).HasDigits width := by
  rw [hasDigits_iff (f := f), expanded_onGrid]
  rcases Nat.lt_or_eq_of_le hk with h | rfl
  · exact ⟨k, drop, h, by push_cast; rfl⟩
  · refine ⟨1, (width + drop : Nat), Nat.one_lt_pow (by omega) (by omega), ?_⟩
    rw [zpow_natCast, ← Nat.pow_add]
    push_cast
    rw [one_mul]

/-- Few digits make a large number only with a large exponent. -/
theorem le_of_large {m width drop : Nat} {t : Int} (hm : m < 10 ^ width)
    (hlarge : ((10 ^ (drop + width) : Nat) : ℚ) ≤ 10 * (m * 10 ^ t)) : (drop : Int) ≤ t := by
  have hpos : (0 : ℚ) < 10 ^ t := zpow_pos (by norm_num) t
  have hcast : (m : ℚ) < 10 ^ (width : Int) := by
    rw [zpow_natCast]
    exact_mod_cast hm
  have hbelow : (10 : ℚ) ^ ((drop : Int) + width) < 10 ^ (t + 1 + width) := by
    calc (10 : ℚ) ^ ((drop : Int) + width) = (10 ^ (drop + width) : Nat) := by
          rw [← Nat.cast_add, zpow_natCast]
          push_cast
          rfl
      _ ≤ 10 * (m * 10 ^ t) := hlarge
      _ < 10 * (10 ^ (width : Int) * 10 ^ t) :=
          mul_lt_mul_of_pos_left (mul_lt_mul_of_pos_right hcast hpos) (by norm_num)
      _ = 10 ^ (t + 1 + width) := by
          rw [zpow_add₀ (by norm_num), zpow_add₀ (by norm_num), zpow_one]
          ring
  have := (zpow_lt_zpow_iff_right₀ (by norm_num : (1 : ℚ) < 10)).mp hbelow
  omega

/-- What has few digits and is large is on a coarse grid. -/
theorem HasDigits.exists_multiple {width drop : Nat} (h : d.HasDigits width)
    (hlarge : (10 ^ (drop + width) : Nat) ≤ 10 * d.expanded f) :
    ∃ k : Nat, d.expanded f = (k * 10 ^ drop : Nat) := by
  obtain ⟨m, t, hm, hd⟩ := (hasDigits_iff (f := f)).mp h
  obtain ⟨i, hi⟩ := Int.le.dest (le_of_large hm (hd ▸ hlarge))
  refine ⟨m * 10 ^ i, ?_⟩
  rw [hd, ← hi, zpow_add₀ (by norm_num), zpow_natCast, zpow_natCast]
  push_cast
  ring

/-- Between a number and a decimal with few digits there is a point of a coarse grid. -/
theorem HasDigits.exists_between {width drop n : Nat} (h : d.HasDigits width)
    (hlarge : 10 ^ (drop + width) ≤ 10 * n) : ∃ k : Nat,
      d.expanded f ≤ (k * 10 ^ drop : Nat) ∧ (k * 10 ^ drop : Nat) ≤ (n : ℚ) ∨
      (n : ℚ) < (k * 10 ^ drop : Nat) ∧ (k * 10 ^ drop : Nat) ≤ d.expanded f := by
  rcases le_or_gt ((10 ^ (drop + width) : Nat) : ℚ) (10 * d.expanded f) with hd | hd
  · obtain ⟨k, hk⟩ := h.exists_multiple hd
    refine ⟨k, ?_⟩
    rcases le_or_gt (d.expanded f) n with hn | hn
    · exact .inl ⟨hk.le, hk ▸ hn⟩
    · exact .inr ⟨hk ▸ hn, hk.ge⟩
  cases width with
  | zero =>
    obtain ⟨m, t, hm, hvalue⟩ := (hasDigits_iff (f := f)).mp h
    obtain rfl : m = 0 := by omega
    refine ⟨0, .inl ⟨?_, ?_⟩⟩
    · rw [hvalue, Nat.cast_zero, zero_mul, Nat.zero_mul, Nat.cast_zero]
    · rw [Nat.zero_mul, Nat.cast_zero]
      exact n.cast_nonneg
  | succ width =>
    -- The power of ten below the width is beyond the decimal, but not beyond the number.
    have hpow : 10 ^ (drop + (width + 1)) = 10 * (10 ^ width * 10 ^ drop) := by ring
    rw [hpow] at hlarge hd
    refine ⟨10 ^ width, .inl ⟨?_, by exact_mod_cast Nat.le_of_mul_le_mul_left hlarge (by omega)⟩⟩
    push_cast at hd ⊢
    linarith

theorem rank_le_of_expanded_le (hf : 0 < f.fractionBits) (h : d.expanded f ≤ e.expanded f) :
    d.rank f ≤ e.rank f := by
  have hpos : (0 : ℚ) < 10 ^ f.fineness := by positivity
  exact rank_mono hf (le_of_mul_le_mul_right h hpos)

theorem toBinary_eq_ofRank_iff (hf : 0 < f.fractionBits) {s : Bool} {rank : Nat}
    (hr : rank < f.top) : d.toBinary f = .ofRank s rank ↔ d.negative = s ∧ d.rank f = rank := by
  rw [toBinary_eq_ofRank hf]
  constructor
  · intro h
    have hd : d.rank f < f.top := by
      by_contra hlarge
      rw [Binary.ofRank_eq_infinite (Nat.not_lt.mp hlarge), Binary.ofRank, dif_pos hr] at h
      cases h
    simp only [Binary.ofRank, dif_pos hr, dif_pos hd, Binary.finite.injEq, Fin.mk.injEq] at h
    exact h
  · rintro ⟨rfl, rfl⟩
    rfl

end Decimal

namespace Shortest
variable {f : Format} {rank : Nat}

/-- What makes a decimal shortest, without signs. -/
structure Minimal (f : Format) (rank : Nat) (d : Decimal) : Prop where
  reads : d.rank f = rank
  fewest : ∀ e : Decimal, e.rank f = rank → ∀ width, e.HasDigits width → d.HasDigits width
  nearest : ∀ e : Decimal, e.rank f = rank → (∀ width, d.HasDigits width → e.HasDigits width) →
    |d.expanded f - expanded f rank| ≤ |e.expanded f - expanded f rank|

namespace Minimal
variable {d e : Decimal} (h : Minimal f rank d)
include h

theorem congr (hf : 0 < f.fractionBits) (heq : d.magnitude = e.magnitude) : Minimal f rank e := by
  have hrank : e.rank f = d.rank f := Decimal.rank_congr hf heq.symm
  have hdigits (width : Nat) : e.HasDigits width ↔ d.HasDigits width := by
    rw [Decimal.HasDigits, Decimal.HasDigits, heq]
  have hexpanded : e.expanded f = d.expanded f := by rw [Decimal.expanded, Decimal.expanded, heq]
  refine ⟨hrank.trans h.reads, ?_, ?_⟩
  · intro c hc width hwidth
    exact (hdigits width).mpr (h.fewest c hc width hwidth)
  · intro c hc hfew
    rw [hexpanded]
    exact h.nearest c hc fun width hwidth => hfew width ((hdigits width).mpr hwidth)

/-- Shortest decimals of one magnitude are equally near. -/
theorem abs_eq (he : Minimal f rank e) :
    |d.expanded f - expanded f rank| = |e.expanded f - expanded f rank| :=
  le_antisymm (h.nearest e he.reads (he.fewest d h.reads)) (he.nearest d h.reads (h.fewest e he.reads))

end Minimal

theorem minimal_zero (hf : 0 < f.fractionBits) {d : Decimal} (hd : d.magnitude = 0) :
    Minimal f 0 d := by
  refine ⟨Decimal.rank_eq_zero hf hd, ?_, ?_⟩
  · intro e he width hwidth
    exact ⟨0, 0, Nat.pow_pos (by omega), by rw [hd, Nat.cast_zero, zero_mul]⟩
  · intro e he hwidth
    have hzero : (expanded f 0 : ℚ) = 0 := by
      rw [expanded, f.units_zero, Nat.zero_mul, Nat.cast_zero]
    rw [Decimal.expanded, hd, zero_mul, hzero, sub_zero, abs_zero]
    exact abs_nonneg _

theorem abs_toRat_sub (hr : rank < f.top) (d : Decimal) :
    |d.toRat - (Binary.ofRank d.negative rank : Binary f).toRat| * 10 ^ f.fineness =
      |d.expanded f - expanded f rank| := by
  have hten : (0 : ℚ) < 10 ^ f.fineness := by positivity
  have hunits : (f.units rank / f.one : ℚ) * 10 ^ f.fineness = expanded f rank := by
    rw [f.cast_ten_pow_fineness, mul_comm ((5 : ℚ) ^ f.fineness), ← mul_assoc,
      div_mul_cancel₀ _ f.cast_one_ne_zero, expanded]
    push_cast
    rfl
  rw [Binary.toRat_ofRank hr, Decimal.toRat, ← Decimal.magnitude, abs_signed_sub, ← abs_of_pos hten,
    ← abs_mul, sub_mul, hunits, Decimal.expanded]

theorem isShortest_iff (hf : 0 < f.fractionBits) (hr : rank < f.top) {s : Bool} {d : Decimal} :
    (.ofRank s rank : Binary f).IsShortest d ↔ d.negative = s ∧ Minimal f rank d := by
  have hreads (e : Decimal) := Decimal.toBinary_eq_ofRank_iff (d := e) hf (s := s) hr
  have hten : (0 : ℚ) < 10 ^ f.fineness := by positivity
  constructor
  · rintro ⟨reads, fewest, nearest⟩
    obtain ⟨rfl, hrank⟩ := (hreads d).mp reads
    -- The sign can be put in front of any decimal.
    refine ⟨rfl, hrank, ?_, ?_⟩
    · intro e he
      exact fewest { e with negative := d.negative } ((hreads _).mpr ⟨rfl, he⟩)
    · intro e he hwidth
      have hnear := nearest { e with negative := d.negative } ((hreads _).mpr ⟨rfl, he⟩) hwidth
      rw [← mul_le_mul_iff_of_pos_right hten, abs_toRat_sub hr] at hnear
      exact hnear.trans_eq (abs_toRat_sub hr { e with negative := d.negative })
  · rintro ⟨rfl, hd⟩
    refine ⟨(hreads d).mpr ⟨rfl, hd.reads⟩, ?_, ?_⟩
    · intro e he
      exact hd.fewest e ((hreads e).mp he).2
    · intro e he hwidth
      obtain ⟨hs, hrank⟩ := (hreads e).mp he
      rw [← mul_le_mul_iff_of_pos_right hten, abs_toRat_sub hr, ← hs, abs_toRat_sub hr]
      exact hd.nearest e hrank hwidth

/-- A point of a grid is read as a magnitude. -/
def Reads (f : Format) (rank k drop : Nat) : Prop := (Decimal.onGrid f false k drop).rank f = rank

/-- The neighbour below a magnitude on a grid, in points of the grid. -/
def below (f : Format) (rank drop : Nat) : Nat := expanded f rank / 10 ^ drop

theorem below_mul_add (f : Format) (rank drop : Nat) :
    below f rank drop * 10 ^ drop + expanded f rank % 10 ^ drop = expanded f rank :=
  Nat.div_add_mod' (expanded f rank) (10 ^ drop)

theorem mod_lt (f : Format) (rank drop : Nat) : expanded f rank % 10 ^ drop < 10 ^ drop :=
  Nat.mod_lt _ (Nat.pow_pos (by omega))

section Neighbours
variable (hf : 0 < f.fractionBits) (hr : rank < f.top)
include hf hr

/-- The finest grid holds the magnitude itself. -/
theorem reads_expanded : Reads f rank (expanded f rank) 0 := by
  have hreads := (expanded_readsAs hf rank).reads
  have hexact : Decimal.onGrid f false (expanded f rank) 0 = ⟨false, expanded f rank, -f.fineness⟩ := by
    simp [Decimal.onGrid]
  rw [← hexact, Decimal.toBinary_eq_ofRank_iff hf hr] at hreads
  exact hreads.2

/-- What lies between a magnitude and a decimal that is read as it is read as it, too. -/
theorem rank_eq_of_between {d e : Decimal} (hd : d.rank f = rank)
    (h : d.expanded f ≤ e.expanded f ∧ e.expanded f ≤ expanded f rank ∨
      expanded f rank ≤ e.expanded f ∧ e.expanded f ≤ d.expanded f) : e.rank f = rank := by
  have hexact : (Decimal.onGrid f false (expanded f rank) 0).rank f = rank := reads_expanded hf hr
  have hvalue := Decimal.expanded_onGrid f false (expanded f rank) 0
  rw [Nat.pow_zero, Nat.mul_one] at hvalue
  rw [← hvalue] at h
  rcases h with ⟨hlow, hhigh⟩ | ⟨hlow, hhigh⟩
  · have hlow := Decimal.rank_le_of_expanded_le hf hlow
    have hhigh := Decimal.rank_le_of_expanded_le hf hhigh
    omega
  · have hlow := Decimal.rank_le_of_expanded_le hf hlow
    have hhigh := Decimal.rank_le_of_expanded_le hf hhigh
    omega

/-- If a decimal with few digits is read as a magnitude, so is the neighbour of the magnitude on the
same side. -/
theorem exists_neighbour {e : Decimal} {width drop : Nat} (he : e.rank f = rank)
    (hwidth : e.HasDigits width) (hlarge : 10 ^ (drop + width) ≤ 10 * expanded f rank) :
    Reads f rank (below f rank drop) drop ∧
      e.expanded f ≤ (below f rank drop * 10 ^ drop : Nat) ∨
    Reads f rank (below f rank drop + 1) drop ∧
      ((below f rank drop + 1) * 10 ^ drop : Nat) ≤ e.expanded f := by
  have hpos : 0 < 10 ^ drop := Nat.pow_pos (by omega)
  have hsplit := below_mul_add f rank drop
  have hrest := mod_lt f rank drop
  have hsucc : (below f rank drop + 1) * 10 ^ drop = below f rank drop * 10 ^ drop + 10 ^ drop :=
    Nat.succ_mul ..
  obtain ⟨k, hk⟩ := hwidth.exists_between hlarge
  rcases hk with ⟨hek, hkn⟩ | ⟨hnk, hke⟩
  · left
    rw [Nat.cast_le] at hkn
    have hk : k * 10 ^ drop ≤ below f rank drop * 10 ^ drop :=
      Nat.mul_le_mul_right _ ((Nat.le_div_iff_mul_le hpos).mpr hkn)
    have hle : e.expanded f ≤ (below f rank drop * 10 ^ drop : Nat) :=
      hek.trans (Nat.cast_le.mpr hk)
    refine ⟨rank_eq_of_between hf hr he (.inl ?_), hle⟩
    rw [Decimal.expanded_onGrid, Nat.cast_le]
    exact ⟨hle, by omega⟩
  · right
    rw [Nat.cast_lt] at hnk
    have hk : (below f rank drop + 1) * 10 ^ drop ≤ k * 10 ^ drop :=
      Nat.mul_le_mul_right _ ((Nat.div_lt_iff_lt_mul hpos).mpr hnk)
    have hle : ((below f rank drop + 1) * 10 ^ drop : Nat) ≤ e.expanded f :=
      (Nat.cast_le.mpr hk).trans hke
    refine ⟨rank_eq_of_between hf hr he (.inr ?_), hle⟩
    rw [Decimal.expanded_onGrid, Nat.cast_le]
    exact ⟨by omega, hle⟩

end Neighbours

theorem expanded_ne_zero (f : Format) (h0 : rank ≠ 0) : expanded f rank ≠ 0 := by
  have hunits := f.units_strictMono (Nat.pos_of_ne_zero h0)
  exact Nat.mul_ne_zero (Nat.ne_of_gt (Nat.zero_lt_of_lt hunits)) (Nat.pow_pos (by omega)).ne'

theorem bounds_of_length_toDigits {n k : Nat} (hn : n ≠ 0)
    (h : (Nat.toDigits 10 n).length = k + 1) : 10 ^ k ≤ n ∧ n < 10 ^ (k + 1) := by
  constructor
  · cases k with
    | zero => exact Nat.pos_of_ne_zero hn
    | succ k =>
      have hlonger : ¬ (Nat.toDigits 10 n).length ≤ k + 1 := by omega
      rwa [Nat.length_toDigits_le_iff (by omega) (by omega), Nat.not_lt] at hlonger
  · exact (Nat.length_toDigits_le_iff (by omega) (by omega)).mp (Nat.le_of_eq h)

/-- A decimal on the grid of `10 ^ drop` units of the expansion, next to a magnitude. -/
structure NextTo (f : Format) (rank digits drop : Nat) : Prop where
  le : digits * 10 ^ drop ≤ expanded f rank + 10 ^ drop
  ge : expanded f rank ≤ digits * 10 ^ drop + 10 ^ drop

namespace Minimal
variable {rank : Nat} {d : Decimal} (h : Minimal f rank d) (hf : 0 < f.fractionBits)
include h hf

theorem magnitude_eq_zero_iff : d.magnitude = 0 ↔ rank = 0 := by
  constructor
  · intro hd
    rw [← h.reads, Decimal.rank_eq_zero hf hd]
  · rintro rfl
    have hzero : (⟨false, 0, 0⟩ : Decimal).magnitude = 0 := Decimal.magnitude_eq_zero_iff.mpr rfl
    have hdigits : (⟨false, 0, 0⟩ : Decimal).HasDigits 0 := ⟨0, 0, Nat.one_pos, by simp [hzero]⟩
    by_contra hd
    exact Nat.lt_irrefl 0 ((h.fewest _ (Decimal.rank_eq_zero hf hzero) 0 hdigits).pos hd)

/-- No decimal with as few digits lies between a shortest one and the magnitude. -/
theorem not_between (hr : rank < f.top) {e : Decimal}
    (hfew : ∀ width, d.HasDigits width → e.HasDigits width) :
    ¬ (d.expanded f < e.expanded f ∧ e.expanded f ≤ expanded f rank) ∧
    ¬ (expanded f rank ≤ e.expanded f ∧ e.expanded f < d.expanded f) := by
  constructor
  · rintro ⟨hlow, hhigh⟩
    have hread := rank_eq_of_between hf hr h.reads (.inl ⟨hlow.le, hhigh⟩)
    have hnear := h.nearest e hread hfew
    rw [abs_of_nonpos (by linarith), abs_of_nonpos (by linarith)] at hnear
    linarith
  · rintro ⟨hlow, hhigh⟩
    have hread := rank_eq_of_between hf hr h.reads (.inr ⟨hlow, hhigh.le⟩)
    have hnear := h.nearest e hread hfew
    rw [abs_of_nonneg (by linarith), abs_of_nonneg (by linarith)] at hnear
    linarith

/-- Nor does a point of a grid with as few digits. -/
theorem not_between_onGrid (hr : rank < f.top) {width k : Nat} (pos : 0 < width)
    (hleast : ∀ v, d.HasDigits v → width ≤ v) (hk : k ≤ 10 ^ width) (drop : Nat) :
    ¬ (d.expanded f < (k * 10 ^ drop : Nat) ∧ k * 10 ^ drop ≤ expanded f rank) ∧
    ¬ (expanded f rank ≤ k * 10 ^ drop ∧ (k * 10 ^ drop : Nat) < d.expanded f) := by
  have hgap := h.not_between hf hr (e := .onGrid f false k drop) fun v hv =>
    (Decimal.hasDigits_onGrid hk pos).mono (hleast v hv)
  rwa [Decimal.expanded_onGrid, Nat.cast_le, Nat.cast_le] at hgap

/-- The last digit of a shortest decimal is not below the finest grid, since the magnitude itself does
with the digits down to there. -/
theorem exists_onGrid (hr : rank < f.top) (h0 : rank ≠ 0) : ∃ k drop width : Nat,
    d.expanded f = (k * 10 ^ drop : Nat) ∧ k < 10 ^ width ∧ 0 < width ∧
      ∀ v, d.HasDigits v → width ≤ v := by
  obtain ⟨width, hwidth, hleast⟩ := d.exists_least_hasDigits
  have hpos : 0 < width := hwidth.pos ((h.magnitude_eq_zero_iff hf).not.mpr h0)
  obtain ⟨k, t, hk, hd⟩ := (Decimal.hasDigits_iff (f := f)).mp hwidth
  cases t with
  | ofNat drop =>
    refine ⟨k, drop, width, ?_, hk, hpos, hleast⟩
    rw [hd, Int.ofNat_eq_natCast, zpow_natCast]
    push_cast
    rfl
  | negSucc i =>
    obtain ⟨l, hl⟩ := Nat.exists_eq_succ_of_ne_zero
      (Nat.length_toDigits_pos (b := 10) (n := expanded f rank)).ne'
    obtain ⟨hlow, hhigh⟩ := bounds_of_length_toDigits (expanded_ne_zero f h0) hl
    have hexact : (Decimal.onGrid f false (expanded f rank) 0).HasDigits (l + 1) :=
      Decimal.hasDigits_onGrid hhigh.le (Nat.succ_pos l)
    have hshort := hleast _ (h.fewest _ (reads_expanded hf hr) _ hexact)
    -- So the decimal is below the first digit of the magnitude.
    have hbelow : d.expanded f < (10 ^ l : Nat) := by
      rw [hd, zpow_negSucc, ← div_eq_mul_inv, div_lt_iff₀ (by positivity)]
      have hk : k < 10 ^ l * 10 ^ (i + 1) := by
        calc k < 10 ^ width := hk
          _ ≤ 10 ^ (l + (i + 1)) := Nat.pow_le_pow_right (by omega) (by omega)
          _ = 10 ^ l * 10 ^ (i + 1) := Nat.pow_add ..
      exact_mod_cast hk
    have hone : 1 ≤ 10 ^ width := Nat.one_le_pow width 10 (by omega)
    have hnone := (h.not_between_onGrid hf hr hpos hleast hone l).1
    rw [Nat.one_mul] at hnone
    exact absurd ⟨hbelow, hlow⟩ hnone

/-- A shortest decimal is next to the magnitude on the grid of its last digit. -/
theorem exists_nextTo (hr : rank < f.top) : ∃ k drop : Nat,
    d.expanded f = (k * 10 ^ drop : Nat) ∧ NextTo f rank k drop := by
  by_cases h0 : rank = 0
  · have hd := (h.magnitude_eq_zero_iff hf).mpr h0
    have hn : expanded f rank = 0 := by rw [h0, expanded, f.units_zero, Nat.zero_mul]
    exact ⟨0, 0, by simp [Decimal.expanded, hd], by omega, by omega⟩
  obtain ⟨k, drop, width, hd, hk, hpos, hleast⟩ := h.exists_onGrid hf hr h0
  have hten : 0 < 10 ^ drop := Nat.pow_pos (by omega)
  refine ⟨k, drop, hd, ?_, ?_⟩
  · by_contra hfar
    have hk0 : k ≠ 0 := by
      rintro rfl
      simp at hfar
    obtain ⟨k, rfl⟩ := Nat.exists_eq_succ_of_ne_zero hk0
    have hk : k ≤ 10 ^ width := by omega
    have hnone := (h.not_between_onGrid hf hr hpos hleast hk drop).2
    rw [hd, Nat.cast_lt, Nat.succ_mul] at hnone
    rw [Nat.succ_mul] at hfar
    exact hnone ⟨by omega, by omega⟩
  · by_contra hfar
    have hnone := (h.not_between_onGrid hf hr hpos hleast hk drop).1
    rw [hd, Nat.cast_lt, Nat.succ_mul] at hnone
    exact hnone ⟨by omega, by omega⟩

end Minimal

/-- The value of a decimal on a grid, as a quotient by a power of five. -/
theorem numerator_mul_five_pow {d : Decimal} {k drop : Nat}
    (h : d.expanded f = (k * 10 ^ drop : Nat)) :
    d.numerator f * 5 ^ f.fineness = k * 10 ^ drop * d.denominator := by
  have hden : (d.denominator : ℚ) ≠ 0 := by exact_mod_cast d.denominator_pos.ne'
  rw [Decimal.expanded, Decimal.magnitude_eq_div f, f.cast_ten_pow_fineness, div_mul_eq_mul_div,
    mul_comm (5 ^ _ : ℚ), ← mul_assoc, mul_div_right_comm,
    mul_div_cancel_right₀ _ f.cast_one_ne_zero, div_mul_eq_mul_div, div_eq_iff hden] at h
  exact_mod_cast h

/-- Of a decimal with few digits and its mirror image beyond a magnitude, one only is on the grid if
twice the magnitude is off the grid. -/
theorem Minimal.magnitude_eq_of_off {rank k drop width : Nat} {d : Decimal} (h : Minimal f rank d)
    (hk : Minimal f rank (.onGrid f false k drop))
    (hwidth : (Decimal.onGrid f false k drop).HasDigits width)
    (large : 10 ^ (drop + width) + 10 * (k * 10 ^ drop) ≤ 10 * (2 * expanded f rank))
    (off : 2 * expanded f rank % 10 ^ drop ≠ 0) :
    d.magnitude = (Decimal.onGrid f false k drop).magnitude := by
  have hten : (10 : ℚ) ^ f.fineness ≠ 0 := pow_ne_zero _ (by norm_num)
  have heq := h.abs_eq hk
  rw [Decimal.expanded_onGrid] at heq
  rcases abs_eq_abs.mp heq with hsame | hmirror
  · refine mul_right_cancel₀ hten ?_
    have hvalue := Decimal.expanded_onGrid f false k drop
    rw [Decimal.expanded] at hsame hvalue
    rw [hvalue]
    linarith
  · have hd : d.expanded f = 2 * expanded f rank - (k * 10 ^ drop : Nat) := by linarith
    have hlarge : ((10 ^ (drop + width) : Nat) : ℚ) ≤ 10 * d.expanded f := by
      have hcast : ((10 ^ (drop + width) : Nat) : ℚ) + 10 * (k * 10 ^ drop : Nat) ≤
          10 * (2 * expanded f rank) := by exact_mod_cast large
      rw [hd]
      linarith
    obtain ⟨j, hj⟩ := (h.fewest _ hk.reads width hwidth).exists_multiple hlarge
    have hsum : 2 * expanded f rank = (j + k) * 10 ^ drop := by
      have hcast : (2 * expanded f rank : ℚ) = (j * 10 ^ drop : Nat) + (k * 10 ^ drop : Nat) := by
        linarith
      rw [Nat.add_mul]
      exact_mod_cast hcast
    exact absurd (hsum ▸ Nat.mul_mod_left ..) off

end Shortest
end Criteria
