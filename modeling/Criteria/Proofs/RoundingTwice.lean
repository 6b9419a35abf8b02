import Mathlib.Tactic.Ring
import Criteria.Proofs.QuotientRounding

/-!
# Rounding twice

A number that is rounded to a fine format and then to a coarse one ends where it would have ended at
once, unless the first rounding moves it onto a midpoint between two magnitudes of the coarse format.
That takes a number which is as near to the midpoint as the last bit of the fine format can tell.
-/

namespace Criteria
set_option autoImplicit false

/-- Two numbers are so near to each other, relatively, that `bits` bits may not tell them apart. -/
def Grazes (bits x y : Nat) : Prop :=
  2 ^ bits * x ≤ (2 ^ bits + 1) * y ∧ (2 ^ bits - 1) * y ≤ 2 ^ bits * x

instance (bits x y : Nat) : Decidable (Grazes bits x y) := inferInstanceAs (Decidable (_ ∧ _))

theorem grazes_mul_right_iff {bits x y z : Nat} (hz : 0 < z) :
    Grazes bits (x * z) (y * z) ↔ Grazes bits x y := by
  simp only [Grazes, ← Nat.mul_assoc, Nat.mul_le_mul_right_iff hz]

namespace Format
variable (f : Format)

/-- Twice the midpoint between the magnitude of a rank and the next one. -/
def twiceMid (rank : Nat) : Nat := f.units rank + f.units (rank + 1)

theorem twiceMid_strictMono {a b : Nat} (h : a < b) : f.twiceMid a < f.twiceMid b := by
  have h₁ := units_strictMono f h
  have h₂ := units_strictMono f (Nat.succ_lt_succ h)
  exact Nat.add_lt_add h₁ h₂

theorem exists_twiceMid (rank : Nat) : ∃ m s, rank = m + s * 2 ^ f.fractionBits ∧
    m < 2 * 2 ^ f.fractionBits ∧ f.units rank = m * 2 ^ s ∧ f.units (rank + 1) = (m + 1) * 2 ^ s := by
  rcases Nat.lt_or_ge rank (2 ^ f.fractionBits) with h | h
  · refine ⟨rank, 0, by simp, by omega, ?_, ?_⟩
    · rw [units_of_lt f h, Nat.pow_zero, Nat.mul_one]
    · rw [units_of_le f (by omega), Nat.pow_zero, Nat.mul_one]
  · obtain ⟨m, s, lo, hi, rfl⟩ := exists_block f h
    refine ⟨m, s, rfl, hi, units_block f lo (Nat.le_of_lt hi) s, ?_⟩
    rw [Nat.add_right_comm, units_block f (by omega) hi]

/-- A quotient that is rounded to a rank lies between the midpoints around its magnitude, and on one
of them only if the rank is even. -/
structure RoundsTo (num den rank : Nat) : Prop where
  above : ∀ k, rank = k + 1 → f.twiceMid k * den ≤ 2 * num ∧
    (f.twiceMid k * den = 2 * num → rank % 2 = 0)
  below : 2 * num ≤ f.twiceMid rank * den ∧ (2 * num = f.twiceMid rank * den → rank % 2 = 0)

variable {f} {num den rank : Nat}

theorem roundsTo_nearestRank (hf : 0 < f.fractionBits) (num : Nat) (pos : 0 < den) :
    f.RoundsTo num den (f.nearestRank num den) := by
  obtain ⟨above, below⟩ := f.nearestRank_bounds hf num pos
  refine ⟨fun k hk => ?_, below⟩
  obtain ⟨hle, heven⟩ := above k hk
  exact ⟨hle, fun h => hk ▸ heven h⟩

/-- A quotient is rounded to one rank only. -/
theorem RoundsTo.not_lt (pos : 0 < den) {r t : Nat} (hr : f.RoundsTo num den r)
    (ht : f.RoundsTo num den t) : ¬ r < t := by
  intro h
  obtain ⟨k, rfl⟩ := Nat.exists_eq_add_of_lt h
  obtain ⟨hle, heven⟩ := ht.above (r + k) rfl
  obtain ⟨hle', heven'⟩ := hr.below
  have hmid : f.twiceMid (r + k) ≤ f.twiceMid r :=
    Nat.le_of_mul_le_mul_right (Nat.le_trans hle hle') pos
  obtain rfl : k = 0 := by
    by_contra hk
    exact Nat.not_lt.mpr hmid (f.twiceMid_strictMono (by omega))
  have hboth : 2 * num = f.twiceMid r * den := Nat.le_antisymm hle' hle
  have := heven hboth.symm
  have := heven' hboth
  omega

theorem RoundsTo.nearestRank_eq (hf : 0 < f.fractionBits) (pos : 0 < den)
    (h : f.RoundsTo num den rank) : f.nearestRank num den = rank := by
  have hnearest := roundsTo_nearestRank hf num pos
  exact Nat.le_antisymm (Nat.le_of_not_lt (h.not_lt pos hnearest))
    (Nat.le_of_not_lt (hnearest.not_lt pos h))

/-- A rounded quotient cannot be told from the quotient by one bit more than the fraction has, unless
it is among the equally spaced magnitudes. -/
theorem grazes_nearestRank (hf : 0 < f.fractionBits) (num : Nat) (pos : 0 < den)
    (hnormal : 2 ^ f.fractionBits < f.nearestRank num den) :
    Grazes (f.fractionBits + 1) num (f.units (f.nearestRank num den) * den) := by
  obtain ⟨above, below⟩ := roundsTo_nearestRank hf num pos
  generalize f.nearestRank num den = rank at *
  obtain ⟨q, rfl⟩ := Nat.exists_eq_succ_of_ne_zero (Nat.ne_zero_of_lt hnormal)
  rw [Nat.succ_eq_add_one] at *
  have hlow := (above q rfl).1
  have hhigh := below.1
  have hstep := f.units_succ_mul_le (Nat.le_of_lt_succ hnormal)
  have hstep' := f.units_succ_mul_le (Nat.le_of_lt hnormal)
  have hbits : 2 ^ (f.fractionBits + 1) = 2 * 2 ^ f.fractionBits := by rw [Nat.pow_succ, Nat.mul_comm]
  obtain ⟨b, hb⟩ := Nat.exists_eq_succ_of_ne_zero (Nat.two_pow_pos f.fractionBits).ne'
  rw [Nat.succ_eq_add_one] at hb
  rw [hb] at hstep hstep'
  rw [twiceMid] at hlow hhigh
  rw [Grazes, hbits, hb]
  constructor
  · calc 2 * (b + 1) * num = (b + 1) * (2 * num) := by ring
      _ ≤ (b + 1) * ((f.units (q + 1) + f.units (q + 1 + 1)) * den) := Nat.mul_le_mul_left _ hhigh
      _ = ((b + 1) * f.units (q + 1) + f.units (q + 1 + 1) * (b + 1)) * den := by ring
      _ ≤ ((b + 1) * f.units (q + 1) + f.units (q + 1) * (b + 1 + 1)) * den :=
          Nat.mul_le_mul_right den (Nat.add_le_add_left hstep' _)
      _ = (2 * (b + 1) + 1) * (f.units (q + 1) * den) := by ring
  · have hbelow : b * f.units (q + 1) ≤ (b + 1) * f.units q := by
      refine Nat.le_of_mul_le_mul_right ?_ (show 0 < b + 1 + 1 by omega)
      calc b * f.units (q + 1) * (b + 1 + 1) ≤ b * f.units (q + 1) * (b + 1 + 1) + f.units (q + 1) :=
            Nat.le_add_right _ _
        _ = (b + 1) * (f.units (q + 1) * (b + 1)) := by ring
        _ ≤ (b + 1) * (f.units q * (b + 1 + 1)) := Nat.mul_le_mul_left _ hstep
        _ = (b + 1) * f.units q * (b + 1 + 1) := by ring
    rw [show 2 * (b + 1) - 1 = 2 * b + 1 by omega]
    calc (2 * b + 1) * (f.units (q + 1) * den)
        = (b * f.units (q + 1) + (b + 1) * f.units (q + 1)) * den := by ring
      _ ≤ ((b + 1) * f.units q + (b + 1) * f.units (q + 1)) * den :=
          Nat.mul_le_mul_right den (Nat.add_le_add_right hbelow _)
      _ = (b + 1) * ((f.units q + f.units (q + 1)) * den) := by ring
      _ ≤ (b + 1) * (2 * num) := Nat.mul_le_mul_left _ hlow
      _ = 2 * (b + 1) * num := by ring

/-- The midpoints of one format are magnitudes of another one, which has `scale` of its least
magnitudes for one, and they are far above the equally spaced ones. -/
structure MidpointsIn (f g : Format) (scale : Nat) : Prop where
  one : g.one = f.one * scale
  exists_rank : ∀ k, ∃ r, 2 * g.units r = f.twiceMid k * scale ∧ 2 ^ g.fractionBits < r

namespace MidpointsIn
variable {g : Format} {scale : Nat} (h : f.MidpointsIn g scale) (hg : 0 < g.fractionBits)
  (pos : 0 < den)
include h hg pos

theorem twiceMid_mul_le {k : Nat} (hk : f.twiceMid k * den ≤ 2 * num) :
    f.twiceMid k * scale ≤ 2 * g.units (g.nearestRank (num * scale) den) := by
  obtain ⟨r, hr, _⟩ := h.exists_rank k
  have hle : 2 * (g.units r * den) ≤ 2 * (num * scale) := by
    calc 2 * (g.units r * den) = f.twiceMid k * den * scale := by
          rw [← Nat.mul_assoc, hr, Nat.mul_right_comm]
      _ ≤ 2 * num * scale := Nat.mul_le_mul_right scale hk
      _ = 2 * (num * scale) := Nat.mul_assoc ..
  have hrank := g.le_nearestRank hg pos (Nat.le_of_mul_le_mul_left hle Nat.two_pos)
  rw [← hr]
  exact Nat.mul_le_mul_left 2 (g.units_mono hrank)

theorem le_twiceMid_mul {k : Nat} (hk : 2 * num ≤ f.twiceMid k * den) :
    2 * g.units (g.nearestRank (num * scale) den) ≤ f.twiceMid k * scale := by
  obtain ⟨r, hr, _⟩ := h.exists_rank k
  have hle : 2 * (num * scale) ≤ 2 * (g.units r * den) := by
    calc 2 * (num * scale) = 2 * num * scale := (Nat.mul_assoc ..).symm
      _ ≤ f.twiceMid k * den * scale := Nat.mul_le_mul_right scale hk
      _ = 2 * (g.units r * den) := by rw [← Nat.mul_assoc, hr, Nat.mul_right_comm]
  have hrank : g.nearestRank (num * scale) den ≤ r := by
    rw [← g.nearestRank_units r pos]
    exact g.nearestRank_mono hg pos pos
      (Nat.mul_le_mul_right den (Nat.le_of_mul_le_mul_left hle Nat.two_pos))
  rw [← hr]
  exact Nat.mul_le_mul_left 2 (g.units_mono hrank)

/-- Rounding twice is rounding once, if the first time does not lead onto a midpoint. -/
theorem nearestRank_twice (hf : 0 < f.fractionBits) (hscale : 0 < scale)
    (hmid : ∀ k, k = f.nearestRank num den ∨ k + 1 = f.nearestRank num den →
      2 * g.units (g.nearestRank (num * scale) den) = f.twiceMid k * scale →
      2 * num = f.twiceMid k * den) :
    f.nearestRank (g.units (g.nearestRank (num * scale) den)) scale = f.nearestRank num den := by
  obtain ⟨above, below⟩ := roundsTo_nearestRank hf num pos
  apply RoundsTo.nearestRank_eq hf hscale
  constructor
  · intro k hk
    obtain ⟨hle, heven⟩ := above k hk
    refine ⟨h.twiceMid_mul_le hg pos hle, fun heq => heven ?_⟩
    exact (hmid k (.inr hk.symm) heq.symm).symm
  · obtain ⟨hle, heven⟩ := below
    exact ⟨h.le_twiceMid_mul hg pos hle, fun heq => heven (hmid _ (.inl rfl) heq)⟩

/-- Only a number that grazes a midpoint is moved onto it. -/
theorem grazes_of_eq_twiceMid {k : Nat}
    (heq : 2 * g.units (g.nearestRank (num * scale) den) = f.twiceMid k * scale)
    (hscale : 0 < scale) :
    Grazes (g.fractionBits + 1) (2 * num) (f.twiceMid k * den) := by
  obtain ⟨r, hr, hnormal⟩ := h.exists_rank k
  have hrank : g.nearestRank (num * scale) den = r := by
    apply (units_inj g).mp
    omega
  have hgrazes := g.grazes_nearestRank hg (num * scale) pos (hrank ▸ hnormal)
  have hnum : num * scale * 2 = 2 * num * scale := by ring
  have hmid : g.units (g.nearestRank (num * scale) den) * den * 2 = f.twiceMid k * den * scale := by
    calc g.units (g.nearestRank (num * scale) den) * den * 2
        = 2 * g.units (g.nearestRank (num * scale) den) * den := by ring
      _ = f.twiceMid k * den * scale := by rw [heq, Nat.mul_right_comm]
  rwa [← grazes_mul_right_iff Nat.two_pos, hnum, hmid, grazes_mul_right_iff hscale] at hgrazes

end MidpointsIn

end Format

namespace Decimal
variable {f g : Format} {scale : Nat} (h : f.MidpointsIn g scale) (hf : 0 < f.fractionBits)
  (hg : 0 < g.fractionBits) (hscale : 0 < scale) (htop : f.units f.top * scale < g.units g.top)
  {d : Decimal} (hr : f.nearestRank (d.numerator f) d.denominator < f.top)
include h hf hg htop hr

/-- A decimal that is a finite number of the coarse format is one of the fine format, too. -/
theorem exists_toBinary : ∃ r : Fin g.top, d.toBinary g = .finite d.negative r ∧
    r.val = g.nearestRank (d.numerator f * scale) d.denominator := by
  have hnum : d.numerator g = d.numerator f * scale := by
    rw [numerator, numerator, h.one, ← Nat.mul_assoc]
  have hbelow := (Format.roundsTo_nearestRank hf (d.numerator f) d.denominator_pos).below.1
  have hmid := h.le_twiceMid_mul hg d.denominator_pos hbelow
  have hsum : f.twiceMid (f.nearestRank (d.numerator f) d.denominator) ≤ 2 * f.units f.top := by
    have hlow := f.units_mono (Nat.le_of_lt hr)
    have hhigh : f.units (f.nearestRank (d.numerator f) d.denominator + 1) ≤ f.units f.top :=
      f.units_mono hr
    rw [Format.twiceMid]
    omega
  have hrank : g.nearestRank (d.numerator f * scale) d.denominator < g.top := by
    apply (g.units_lt_iff).mp
    have := Nat.mul_le_mul_right scale hsum
    rw [Nat.mul_assoc] at this
    omega
  refine ⟨⟨_, hrank⟩, ?_, rfl⟩
  rw [toBinary_eq_ofUnits hg, Binary.ofUnits, hnum, Binary.ofRank, dif_pos hrank]

include hscale

/-- A decimal that is read in the fine format and then converted is what it would have been at once,
if it grazes no midpoint next to it without being on it. -/
theorem convert_toBinary
    (hmid : ∀ k, k = f.nearestRank (d.numerator f) d.denominator ∨
      k + 1 = f.nearestRank (d.numerator f) d.denominator →
      Grazes (g.fractionBits + 1) (2 * d.numerator f) (f.twiceMid k * d.denominator) →
      2 * d.numerator f = f.twiceMid k * d.denominator) :
    (d.toBinary g).convert = d.toBinary f := by
  obtain ⟨r, hd, hval⟩ := exists_toBinary h hf hg htop hr
  rw [hd, toBinary_eq_ofUnits hf]
  simp only [Binary.convert, Binary.ofUnits]
  rw [← h.nearestRank_twice hg d.denominator_pos hf hscale fun k hk heq =>
    hmid k hk (h.grazes_of_eq_twiceMid hg d.denominator_pos heq hscale), hval]
  congr 1
  refine f.nearestRank_congr hf (Nat.two_pow_pos _) hscale ?_
  rw [h.one, Nat.mul_assoc]

end Decimal
end Criteria
