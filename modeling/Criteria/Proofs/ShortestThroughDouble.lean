import Criteria.Proofs.MidpointDecimals
import Criteria.Proofs.ShortestSearch

/-!
# Shortest decimals read through doubles

A shortest decimal of a float lies on a grid no finer than about half the spacing of the floats there.
Read as a double and narrowed again it is the same float, unless it is one of the few decimals that
graze a midpoint; of those one is moved onto the midpoint and from there to the next float.
-/

namespace Criteria
set_option autoImplicit false

theorem Format.single_fractionBits_pos : 0 < single.fractionBits := by decide

theorem Format.double_fractionBits_pos : 0 < double.fractionBits := by decide

/-- Every midpoint between two floats is a double. -/
theorem Format.single_midpointsIn_double : single.MidpointsIn double (2 ^ 925) where
  one := by decide +kernel
  exists_rank k := by
    obtain ⟨m, s, _, hm, hlow, hhigh⟩ := single.exists_twiceMid k
    have hwidth : 2 * m + 1 ≤ 2 * 2 ^ double.fractionBits := by
      have : 2 ^ single.fractionBits = 2 ^ 23 := rfl
      have : 2 ^ double.fractionBits = 2 ^ 52 := rfl
      omega
    obtain ⟨r, hr⟩ := double.exists_units (s + 924) hwidth
    refine ⟨r, ?_, ?_⟩
    · calc 2 * double.units r = (2 * m + 1) * 2 ^ (s + 925) := by
            rw [hr, Nat.mul_left_comm, ← Nat.pow_succ']
        _ = (m * 2 ^ s + (m + 1) * 2 ^ s) * 2 ^ 925 := by
            rw [Nat.pow_add, ← Nat.mul_assoc, ← Nat.add_mul, Nat.two_mul, Nat.add_assoc]
        _ = single.twiceMid k * 2 ^ 925 := by rw [twiceMid, hlow, hhigh]
    · apply (units_lt_iff double).mp
      rw [hr, units_of_le double (by omega)]
      calc 2 ^ double.fractionBits < 2 ^ (s + 924) :=
            Nat.pow_lt_pow_right (by omega) (show 52 < s + 924 by omega)
        _ ≤ (2 * m + 1) * 2 ^ (s + 924) := Nat.le_mul_of_pos_left _ (by omega)

namespace Midpoint
open Shortest

/-- A decimal next to a magnitude that grazes a midpoint beside it is on a grid that is not finer
than about half the spacing. -/
theorem spacing_le_of_grazes {k m block rank digits drop : Nat} (hm : m < 2 ^ 24)
    (hlow : Format.single.units k = m * 2 ^ block)
    (hhigh : Format.single.units (k + 1) = (m + 1) * 2 ^ block) (hk : k = rank ∨ k + 1 = rank)
    (hnext : NextTo .single rank digits drop)
    (hgrazes : Grazes 53 (2 * (digits * 10 ^ drop)) ((2 * m + 1) * spacing block)) :
    (2 ^ 28 - 1) * spacing block ≤ 2 ^ 28 * (2 * 10 ^ drop) := by
  have hmid : (2 * m + 1) * spacing block = 2 * (m * spacing block) + spacing block := by ring
  have hexpand (n r : Nat) (h : Format.single.units r = n * 2 ^ block) :
      expanded .single r = n * spacing block := by rw [expanded, h, spacing, Nat.mul_assoc]
  have hwidth : m * spacing block ≤ (2 ^ 24 - 1) * spacing block :=
    Nat.mul_le_mul_right _ (by omega)
  obtain ⟨hupper, hlower⟩ := hgrazes
  rw [hmid] at hupper hlower
  obtain ⟨hle, hge⟩ := hnext
  rcases hk with rfl | rfl
  · rw [hexpand m k hlow] at hle
    omega
  · rw [hexpand (m + 1) (k + 1) hhigh, Nat.succ_mul] at hge
    omega

/-- The ranks on both sides of the grazed midpoints. -/
def ranks : List Nat :=
  grazed.flatMap fun (block, den) => [den / 2 + block * 2 ^ 23, den / 2 + block * 2 ^ 23 + 1]

theorem mem_ranks_of_mem_grazed {k m block rank : Nat} (h : (block, 2 * m + 1) ∈ grazed)
    (hk : k = m + block * 2 ^ 23) (hr : k = rank ∨ k + 1 = rank) : rank ∈ ranks := by
  refine List.mem_flatMap.mpr ⟨_, h, ?_⟩
  have hhalf : (2 * m + 1) / 2 = m := by omega
  simp only [hhalf, List.mem_cons, List.not_mem_nil, or_false]
  omega

end Midpoint

namespace Shortest

/-- The only positive float whose shortest decimal is not read as it through a double. -/
def slippingRank : Nat := 0x15AE43FD

/-- The rank that the shortest decimal of a rank is read as through a double. -/
def reread (rank : Nat) : Nat := if rank = slippingRank then rank + 1 else rank

theorem single_units_top_lt :
    Format.single.units Format.single.top * 2 ^ 925 < Format.double.units Format.double.top := by
  decide +kernel

section
variable {rank : Nat} (hr : rank < Format.single.top) {d : Decimal} (h : Minimal .single rank d)
include hr h

theorem Minimal.isFinite_toBinary : (d.toBinary .double).isFinite = true := by
  obtain ⟨r, hd, _⟩ := Decimal.exists_toBinary Format.single_midpointsIn_double
    Format.single_fractionBits_pos Format.double_fractionBits_pos single_units_top_lt
    (h.reads.trans_lt hr)
  rw [hd]
  rfl

/-- Away from the known midpoints, a shortest decimal grazes a midpoint only if it is on it. -/
theorem Minimal.eq_twiceMid_of_grazes {k : Nat} (hrank : rank ∉ Midpoint.ranks)
    (hk : k = rank ∨ k + 1 = rank)
    (hgrazes : Grazes 53 (2 * d.numerator .single) (Format.single.twiceMid k * d.denominator)) :
    2 * d.numerator .single = Format.single.twiceMid k * d.denominator := by
  obtain ⟨digits, drop, hd, hnext⟩ := h.exists_nextTo Format.single_fractionBits_pos hr
  have hvalue := numerator_mul_five_pow hd
  have hpos := d.denominator_pos
  generalize d.numerator .single = num at hgrazes hvalue ⊢
  generalize d.denominator = den at hgrazes hpos hvalue ⊢
  obtain ⟨m, block, hkm, hm, hlow, hhigh⟩ := Format.single.exists_twiceMid k
  -- Both sides in tens to the minus `fineness`.
  have hfive : 0 < 5 ^ Format.single.fineness := Nat.pow_pos (by omega)
  have hnum : 2 * num * 5 ^ Format.single.fineness = 2 * (digits * 10 ^ drop) * den := by
    rw [Nat.mul_assoc, hvalue, Nat.mul_assoc 2]
  have hmid : Format.single.twiceMid k * den * 5 ^ Format.single.fineness =
      (2 * m + 1) * Midpoint.spacing block * den := by
    rw [Format.twiceMid, hlow, hhigh, Midpoint.spacing]
    ring
  rw [← grazes_mul_right_iff hfive, hnum, hmid, grazes_mul_right_iff hpos] at hgrazes
  have hgrid := Midpoint.spacing_le_of_grazes hm hlow hhigh hk hnext hgrazes
  have hblock : block < 255 := by
    have htop : Format.single.top = 255 * 2 ^ 23 := rfl
    have hkm : k = m + block * 2 ^ 23 := hkm
    omega
  have hwidth : 2 * m + 1 < 2 ^ 25 := by
    have hm : m < 2 ^ 24 := hm
    omega
  rcases Midpoint.eq_or_mem_grazed hblock (by omega) hwidth hgrid hgrazes with heq | hmem
  · refine Nat.eq_of_mul_eq_mul_right hfive ?_
    rw [hnum, hmid, heq]
  · exact absurd (Midpoint.mem_ranks_of_mem_grazed hmem hkm hk) hrank

theorem Minimal.convert_of_not_mem (hrank : rank ∉ Midpoint.ranks) :
    (d.toBinary .double).convert = (.ofRank d.negative rank : Single) := by
  have hf := Format.single_fractionBits_pos
  have hconvert := Decimal.convert_toBinary Format.single_midpointsIn_double hf
    Format.double_fractionBits_pos (Nat.two_pow_pos 925) single_units_top_lt (h.reads.trans_lt hr)
  rw [hconvert, Decimal.toBinary_eq_ofRank hf, h.reads]
  intro k hk hgrazes
  exact h.eq_twiceMid_of_grazes hr hrank (h.reads ▸ hk) hgrazes

end

/-- A rank beside a known midpoint, with its shortest decimal by digits, power of ten and width. -/
structure Beside where
  rank : Nat
  digits : Nat
  drop : Nat
  width : Nat

namespace Beside

/-- What is computed for each of them: the search finds the decimal, no other one is as short and as
near, and it is read as `reread` says. -/
structure Checked (x : Beside) : Prop where
  ne_zero : x.rank ≠ 0
  found : decimal .single .toEven x.rank = .onGrid .single false x.digits x.drop
  few : x.digits ≤ 10 ^ x.width ∧ 0 < x.width
  large : 10 ^ (x.drop + x.width) + 10 * (x.digits * 10 ^ x.drop) ≤ 10 * (2 * expanded .single x.rank)
  off : 2 * expanded .single x.rank % 10 ^ x.drop ≠ 0
  read : ∀ s, ((Decimal.onGrid .single s x.digits x.drop).toBinary .double).convert =
    (.ofRank s (reread x.rank) : Single)

instance (x : Beside) : Decidable x.Checked :=
  decidable_of_iff (x.rank ≠ 0 ∧
    decimal .single .toEven x.rank = .onGrid .single false x.digits x.drop ∧
    (x.digits ≤ 10 ^ x.width ∧ 0 < x.width) ∧
    10 ^ (x.drop + x.width) + 10 * (x.digits * 10 ^ x.drop) ≤ 10 * (2 * expanded .single x.rank) ∧
    2 * expanded .single x.rank % 10 ^ x.drop ≠ 0 ∧
    ∀ s, ((Decimal.onGrid .single s x.digits x.drop).toBinary .double).convert =
      (.ofRank s (reread x.rank) : Single))
    ⟨fun ⟨h₁, h₂, h₃, h₄, h₅, h₆⟩ => ⟨h₁, h₂, h₃, h₄, h₅, h₆⟩,
      fun ⟨h₁, h₂, h₃, h₄, h₅, h₆⟩ => ⟨h₁, h₂, h₃, h₄, h₅, h₆⟩⟩

def all : List Beside :=
  [⟨0x15AE43FD, 7038531, 117, 7⟩, ⟨0x15AE43FE, 70385313, 116, 8⟩,
    ⟨0x162E43FD, 14077061, 117, 8⟩, ⟨0x162E43FE, 14077063, 117, 8⟩,
    ⟨0x32DC4BD1, 25645848, 134, 8⟩, ⟨0x32DC4BD2, 2564585, 135, 7⟩]

theorem all_checked : ∀ x ∈ all, x.Checked := by decide +kernel

theorem exists_of_mem_ranks : ∀ rank ∈ Midpoint.ranks, ∃ x ∈ all, x.rank = rank := by decide

end Beside

theorem Minimal.convert_of_mem {rank : Nat} {d : Decimal} (h : Minimal .single rank d)
    (hr : rank < Format.single.top) (hmem : rank ∈ Midpoint.ranks) :
    (d.toBinary .double).convert = (.ofRank d.negative (reread rank) : Single) := by
  obtain ⟨x, hx, rfl⟩ := Beside.exists_of_mem_ranks rank hmem
  have hchecked := Beside.all_checked x hx
  have hfound := decimal_minimal Format.single_fractionBits_pos hr .toEven hchecked.ne_zero
  rw [hchecked.found] at hfound
  have hwidth : (Decimal.onGrid .single false x.digits x.drop).HasDigits x.width :=
    Decimal.hasDigits_onGrid hchecked.few.1 hchecked.few.2
  have hsame : d.magnitude = (Decimal.onGrid .single d.negative x.digits x.drop).magnitude :=
    h.magnitude_eq_of_off hfound hwidth hchecked.large hchecked.off
  have hbinary : d.toBinary .double =
      (Decimal.onGrid .single d.negative x.digits x.drop).toBinary .double :=
    Decimal.toBinary_congr Format.double_fractionBits_pos rfl hsame
  rw [hbinary]
  exact hchecked.read d.negative

end Shortest

/-- What a shortest decimal of a float is read as through a double. -/
theorem Binary.IsShortest.convert_toBinary {s : Bool} {rank : Nat} (hr : rank < Format.single.top)
    {d : Decimal} (h : (.ofRank s rank : Single).IsShortest d) :
    (d.toBinary .double).isFinite = true ∧
      (d.toBinary .double).convert = (.ofRank s (Shortest.reread rank) : Single) := by
  obtain ⟨rfl, hminimal⟩ := (Shortest.isShortest_iff Format.single_fractionBits_pos hr).mp h
  refine ⟨hminimal.isFinite_toBinary hr, ?_⟩
  by_cases hrank : rank ∈ Midpoint.ranks
  · exact hminimal.convert_of_mem hr hrank
  · have hne : rank ≠ Shortest.slippingRank := by
      rintro rfl
      exact hrank (by decide)
    rw [hminimal.convert_of_not_mem hr hrank, Shortest.reread, if_neg hne]

end Criteria
