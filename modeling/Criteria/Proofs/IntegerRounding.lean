import Criteria.Proofs.DecimalRounding

/-!
# Integers among the floats

An integer goes to the nearest float, so a greater integer never goes to a lesser float. An integer
that is not wider than a mantissa is a float itself, and no other integer goes there.
-/

namespace Criteria
set_option autoImplicit false

namespace Format
variable (f : Format)

/-- The rank nearest to a natural number. -/
def rankOf (n : Nat) : Nat := f.nearestRank (n * f.one) 1

theorem rankOf_mono (hf : 0 < f.fractionBits) {m n : Nat} (h : m ≤ n) :
    f.rankOf m ≤ f.rankOf n := by
  apply f.nearestRank_mono hf Nat.one_pos Nat.one_pos
  rw [Nat.mul_one, Nat.mul_one]
  exact Nat.mul_le_mul_right f.one h

/-- A mantissa, also one that carries into the next block, is a magnitude in every spacing. -/
theorem exists_units (s : Nat) {m : Nat} (h : m ≤ 2 * 2 ^ f.fractionBits) :
    ∃ r, f.units r = m * 2 ^ s := by
  induction s generalizing m with
  | zero => exact ⟨m, by rw [units_of_le f h, Nat.pow_zero, Nat.mul_one]⟩
  | succ s ih =>
    rcases Nat.lt_or_ge m (2 ^ f.fractionBits) with lo | lo
    · obtain ⟨r, hr⟩ := ih (m := m * 2) (by omega)
      exact ⟨r, by rw [hr, Nat.mul_assoc, Nat.pow_succ, Nat.mul_comm 2]⟩
    · exact ⟨_, units_block f lo h (s + 1)⟩

/-- A mantissa with zeros behind it is its own magnitude. -/
theorem units_rankOf_mul {m : Nat} (h : m ≤ 2 * 2 ^ f.fractionBits) (k : Nat) :
    f.units (f.rankOf (m * 2 ^ k)) = m * 2 ^ k * f.one := by
  obtain ⟨r, hr⟩ := f.exists_units (k + f.fineness) h
  have hn : m * 2 ^ k * f.one = f.units r * 1 := by
    rw [Nat.mul_one, hr, one, Nat.pow_add, Nat.mul_assoc]
  rw [rankOf, hn, nearestRank_units f r Nat.one_pos, Nat.mul_one]

theorem units_rankOf {n : Nat} (h : n ≤ 2 * 2 ^ f.fractionBits) :
    f.units (f.rankOf n) = n * f.one := by
  simpa using f.units_rankOf_mul h 0

theorem rankOf_lt {m n : Nat} (hmn : m < n) (h : n ≤ 2 * 2 ^ f.fractionBits) :
    f.rankOf m < f.rankOf n := by
  apply (units_lt_iff f).mp
  rw [f.units_rankOf (by omega), f.units_rankOf h]
  exact Nat.mul_lt_mul_of_pos_right hmn (Nat.two_pow_pos _)

@[simp] theorem rankOf_zero : f.rankOf 0 = 0 := by
  apply (units_inj f).mp
  rw [f.units_rankOf (Nat.zero_le _), Nat.zero_mul, units_zero]

/-- The position of the rank, with a sign. Ranks from the top on are all at infinity. -/
def signedRank (negative : Bool) (rank : Nat) : Int :=
  if negative then -((min rank f.top : Nat) : Int) else (min rank f.top : Nat)

/-- The position of the datum nearest to an integer. -/
def place (n : Int) : Int := f.signedRank (n < 0) (f.rankOf n.natAbs)

theorem place_mono (hf : 0 < f.fractionBits) {m n : Int} (h : m ≤ n) : f.place m ≤ f.place n := by
  have hneg : n ≤ 0 → f.rankOf n.natAbs ≤ f.rankOf m.natAbs := fun hn =>
    f.rankOf_mono hf (by omega)
  have hpos : 0 ≤ m → f.rankOf m.natAbs ≤ f.rankOf n.natAbs := fun hm =>
    f.rankOf_mono hf (by omega)
  simp only [place, signedRank, decide_eq_true_eq]
  split <;> split <;> omega

theorem place_neg (n : Int) : f.place (-n) = -f.place n := by
  simp only [place, signedRank, Int.natAbs_neg, decide_eq_true_eq]
  rcases Int.lt_trichotomy n 0 with h | rfl | h
  · rw [if_neg (by omega), if_pos h, Int.neg_neg]
  · simp
  · rw [if_pos (by omega), if_neg (by omega)]

/-- Integers no wider than a mantissa have places of their own. -/
theorem place_lt {m n : Int} (hmn : m < n) (hm : m.natAbs ≤ 2 * 2 ^ f.fractionBits)
    (hn : n.natAbs ≤ 2 * 2 ^ f.fractionBits) (htop : f.rankOf (2 * 2 ^ f.fractionBits) ≤ f.top)
    (hf : 0 < f.fractionBits) : f.place m < f.place n := by
  have hm' := f.rankOf_mono hf hm
  have hn' := f.rankOf_mono hf hn
  have hneg : n ≤ 0 → f.rankOf n.natAbs < f.rankOf m.natAbs := fun _ =>
    f.rankOf_lt (by omega) hm
  have hpos : 0 ≤ m → f.rankOf m.natAbs < f.rankOf n.natAbs := fun _ =>
    f.rankOf_lt (by omega) hn
  have hfirst : 0 < m.natAbs → f.rankOf 0 < f.rankOf m.natAbs := fun h => f.rankOf_lt h hm
  simp only [place, signedRank, decide_eq_true_eq]
  split <;> split <;> omega

theorem single_place_mono {m n : Int} (h : m ≤ n) : single.place m ≤ single.place n :=
  single.place_mono (by decide) h

theorem single_rankOf_lt_top {n : Nat} (h : n ≤ 2 ^ 64) : single.rankOf n < single.top :=
  Nat.lt_of_le_of_lt (single.rankOf_mono (by decide) h) (by decide)

/-- An integer of less than 24 bits and every other one have different places. -/
theorem single_place_lt_iff {k n : Int} (hk : k.natAbs < 2 ^ 24 ∨ n.natAbs < 2 ^ 24) :
    single.place k < single.place n ↔ k < n := by
  have hfrac : 2 * 2 ^ single.fractionBits = 2 ^ 24 := by decide
  have htop : single.rankOf (2 * 2 ^ single.fractionBits) ≤ single.top := by decide
  constructor
  · intro h
    refine Int.not_le.mp fun hnk => ?_
    have hle := single_place_mono hnk
    omega
  · intro h
    rcases hk with hk | hk
    · have hstep : single.place k < single.place (k + 1) :=
        single.place_lt (by omega) (by omega) (by omega) htop (by decide)
      have hle : single.place (k + 1) ≤ single.place n := single_place_mono (by omega)
      omega
    · have hstep : single.place (n - 1) < single.place n :=
        single.place_lt (by omega) (by omega) (by omega) htop (by decide)
      have hle : single.place k ≤ single.place (n - 1) := single_place_mono (by omega)
      omega

end Format

namespace Binary
variable {f : Format}

theorem position?_ofRank (s : Bool) (r : Nat) :
    (ofRank s r : Binary f).position? = some (f.signedRank s r) := by
  by_cases h : r < f.top
  · rw [ofRank, dif_pos h, Format.signedRank, Nat.min_eq_left (Nat.le_of_lt h)]
    cases s <;> rfl
  · rw [ofRank, dif_neg h, Format.signedRank, Nat.min_eq_right (Nat.le_of_not_lt h)]
    cases s <;> rfl

theorem ofInt_eq_ofRank (n : Int) :
    (ofInt n : Binary f) = ofRank (n < 0) (f.rankOf n.natAbs) := rfl

theorem position?_ofInt (n : Int) : (ofInt n : Binary f).position? = some (f.place n) :=
  position?_ofRank _ _

section order
variable {x y : Binary f} {i j : Int} (hx : x.position? = some i) (hy : y.position? = some j)
include hx hy

theorem le_iff : x.le y = true ↔ i ≤ j := by simp [le, hx, hy]

theorem lt_iff : x.lt y = true ↔ i < j := by simp [lt, hx, hy]

end order

/-- A greater integer never goes to a lesser datum. -/
theorem ofInt_le (hf : 0 < f.fractionBits) {m n : Int} (h : m ≤ n) :
    (ofInt m : Binary f).le (ofInt n) = true :=
  (le_iff (position?_ofInt m) (position?_ofInt n)).mpr (f.place_mono hf h)

end Binary
end Criteria
