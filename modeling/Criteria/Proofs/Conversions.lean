import Criteria.Proofs.ContiguousIntegers
import Criteria.Proofs.FloatCloseness
import Criteria.Proofs.ShortestThroughDouble

/-!
# From one format to another

Conversion keeps the order of numbers, and a magnitude that both formats have is converted to itself.
Doubles have all magnitudes of floats, so a float that is widened and then narrowed is the same
again. Out of reach of a format are the integers from the midpoint below its first missing power of
two on.
-/

namespace Criteria
set_option autoImplicit false

namespace Format
variable {f : Format}

/-- Infinity begins at a power of two. Twice the midpoint between it and the greatest magnitude. -/
theorem twiceMid_below_top (he : 2 ≤ f.exponentBits) :
    f.twiceMid (f.top - 1) = (4 * 2 ^ f.fractionBits - 1) * 2 ^ (2 ^ f.exponentBits - 3) := by
  have hblocks : 4 ≤ 2 ^ f.exponentBits := Nat.pow_le_pow_right Nat.two_pos he
  have hpos : 0 < 2 ^ f.fractionBits := Nat.two_pow_pos _
  obtain ⟨k, hk⟩ := Nat.exists_eq_add_of_le hblocks
  have htop : f.top - 1 = (2 * 2 ^ f.fractionBits - 1) + (k + 1) * 2 ^ f.fractionBits := by
    rw [top, hk, show 4 + k - 1 = k + 1 + 2 by omega, Nat.add_mul _ 2]
    omega
  have hnext : f.top - 1 + 1 = 2 * 2 ^ f.fractionBits + (k + 1) * 2 ^ f.fractionBits := by omega
  -- Both are in the last block, the power of two as its end.
  have hlow := f.units_block (m := 2 * 2 ^ f.fractionBits - 1) (by omega) (by omega) (k + 1)
  have hhigh := f.units_block (m := 2 * 2 ^ f.fractionBits) (by omega) (Nat.le_refl _) (k + 1)
  rw [twiceMid, hnext, htop, hlow, hhigh, ← Nat.add_mul, hk, show 4 + k - 3 = k + 1 by omega]
  congr 1
  omega

theorem top_mod_two (hf : 0 < f.fractionBits) : f.top % 2 = 0 := by
  obtain ⟨p, hp⟩ := Nat.exists_eq_add_of_lt hf
  rw [top, hp, Nat.zero_add, Nat.pow_succ, ← Nat.mul_assoc, Nat.mul_mod_left]

/-- An integer goes to a finite magnitude exactly if it is below the midpoint between the greatest
one and the power of two where infinity begins. -/
theorem rankOf_lt_top_iff (hf : 0 < f.fractionBits) (he : 2 ≤ f.exponentBits) {k : Nat}
    (hk : 2 ^ f.exponentBits - 3 = k + f.fineness + 1) (n : Nat) :
    f.rankOf n < f.top ↔ n < 2 ^ (2 + f.fractionBits + k) - 2 ^ k := by
  have heven := f.top_mod_two hf
  have hone : 0 < f.one := Nat.two_pow_pos _
  have hpos : 0 < f.top :=
    Nat.mul_pos (Nat.sub_pos_of_lt (Nat.one_lt_two_pow (by omega))) (Nat.two_pow_pos _)
  have hround : f.nearestRank (n * f.one) 1 ≤ f.top - 1 ↔
      2 * (n * f.one) < f.twiceMid (f.top - 1) * 1 :=
    nearestRank_le_iff_of_odd hf Nat.one_pos (by omega)
  have hmid : f.twiceMid (f.top - 1) = 2 * ((2 ^ (2 + f.fractionBits + k) - 2 ^ k) * f.one) := by
    calc f.twiceMid (f.top - 1) = (4 * 2 ^ f.fractionBits - 1) * (2 ^ k * f.one * 2) := by
          rw [twiceMid_below_top he, hk, Nat.pow_succ, Nat.pow_add, one]
      _ = 2 * ((4 * 2 ^ f.fractionBits - 1) * 2 ^ k * f.one) := by ac_rfl
      _ = 2 * ((2 ^ (2 + f.fractionBits + k) - 2 ^ k) * f.one) := by
          rw [Nat.sub_mul, Nat.one_mul, Nat.pow_add, Nat.pow_add]
  rw [Nat.mul_one, hmid, Nat.mul_lt_mul_left Nat.two_pos, Nat.mul_lt_mul_right hone] at hround
  rw [← hround, rankOf]
  omega

theorem double_rankOf_lt_top_iff (n : Nat) :
    double.rankOf n < double.top ↔ n < 2 ^ 1024 - 2 ^ 970 := by
  have hscale : 2 ^ double.exponentBits - 3 = 970 + double.fineness + 1 := by decide
  have hbits : 2 + double.fractionBits + 970 = 1024 := by decide
  rw [rankOf_lt_top_iff double_fractionBits_pos (by decide) hscale, hbits]

theorem double_rankOf_lt_top {n : Nat} (h : n ≤ 2 ^ 63) : double.rankOf n < double.top :=
  Nat.lt_of_le_of_lt (double.rankOf_mono double_fractionBits_pos h) (by decide +kernel)

/-- Every magnitude of a float is one of a double. -/
theorem exists_double_units {r : Nat} (hr : r < single.top) :
    ∃ q < double.top, double.units q * single.one = single.units r * double.one := by
  obtain ⟨m, s, _, hm, hunits, _⟩ := single.exists_twiceMid r
  have hwidth : m ≤ 2 * 2 ^ double.fractionBits := by
    have : 2 * 2 ^ single.fractionBits ≤ 2 * 2 ^ double.fractionBits := by decide
    omega
  obtain ⟨q, hq⟩ := double.exists_units (s + 925) hwidth
  have hscaled : double.units q = single.units r * 2 ^ 925 := by
    rw [hq, hunits, Nat.pow_add, Nat.mul_assoc]
  refine ⟨q, ?_, ?_⟩
  · apply (units_lt_iff double).mp
    calc double.units q = single.units r * 2 ^ 925 := hscaled
      _ ≤ single.units single.top * 2 ^ 925 :=
          Nat.mul_le_mul_right _ (single.units_mono (Nat.le_of_lt hr))
      _ < double.units double.top := Shortest.single_units_top_lt
  · rw [hscaled, single_midpointsIn_double.one, Nat.mul_right_comm, Nat.mul_assoc]

end Format

namespace Binary
variable {f g : Format}

theorem isFinite_ofRank_iff {s : Bool} {r : Nat} :
    (ofRank s r : Binary f).isFinite = true ↔ r < f.top := by
  constructor
  · intro h
    by_contra hge
    rw [ofRank_eq_infinite (Nat.le_of_not_lt hge)] at h
    exact Bool.false_ne_true h
  · exact isFinite_ofRank

theorem double_ofInt_isFinite_iff (n : Int) :
    (ofInt n : Double).isFinite = true ↔ n.natAbs < 2 ^ 1024 - 2 ^ 970 :=
  isFinite_ofRank_iff.trans (Format.double_rankOf_lt_top_iff n.natAbs)

/-- Conversion keeps the order, also where it ends in infinity. -/
theorem convert_le (hg : 0 < g.fractionBits) {x y : Binary f} (hx : x.isFinite = true)
    (hy : y.isFinite = true) (h : x.le y = true) :
    (x.convert : Binary g).le y.convert = true := by
  obtain ⟨s, a, rfl⟩ := exists_of_isFinite hx
  obtain ⟨t, b, rfl⟩ := exists_of_isFinite hy
  have horder := ofRank_le_ofRank (e := g) h (g := fun _ r => g.nearestRank (f.units r * g.one) f.one)
    ?mono ?zero
  case mono =>
    intro s m n hmn
    apply g.nearestRank_mono hg f.one_pos f.one_pos
    exact Nat.mul_le_mul_right _ (Nat.mul_le_mul_right _ (f.units_mono hmn))
  case zero =>
    intro s
    rw [f.units_zero, Nat.zero_mul, g.nearestRank_zero hg f.one_pos]
  exact horder.1

/-- A magnitude that the other format has, too, is converted to itself. -/
theorem convert_finite {s : Bool} {r : Fin f.top} {q : Nat}
    (h : g.units q * f.one = f.units r * g.one) :
    ((finite s r : Binary f).convert : Binary g) = ofRank s q := by
  rw [convert, ofUnits, ← h, g.nearestRank_units q f.one_pos]

/-- A float that is widened to a double and narrowed again is the same. -/
theorem convert_convert (x : Single) : ((x.convert : Double).convert : Single) = x := by
  cases x with
  | nan => rfl
  | infinite s => rfl
  | finite s r =>
    obtain ⟨q, hq, hunits⟩ := Format.exists_double_units r.isLt
    have hwide : ((finite s r : Single).convert : Double) = finite s ⟨q, hq⟩ := by
      rw [convert_finite hunits, ofRank, dif_pos hq]
    rw [hwide, convert_finite (r := ⟨q, hq⟩) hunits.symm, ofRank_val]

/-- An integer that is a finite magnitude of a format goes through it to every other format. -/
theorem convert_ofInt (hg : 0 < g.fractionBits) {n : Int}
    (h : f.units (f.rankOf n.natAbs) = n.natAbs * f.one) (htop : f.rankOf n.natAbs < f.top) :
    ((ofInt n : Binary f).convert : Binary g) = ofInt n := by
  have hnear : g.nearestRank (f.units (f.rankOf n.natAbs) * g.one) f.one = g.rankOf n.natAbs := by
    apply g.nearestRank_congr hg f.one_pos Nat.one_pos
    rw [h, Nat.mul_one, Nat.mul_right_comm]
  rw [ofInt_eq_ofRank, ofInt_eq_ofRank, ofRank, dif_pos htop, convert, ofUnits, hnear]

end Binary
end Criteria
