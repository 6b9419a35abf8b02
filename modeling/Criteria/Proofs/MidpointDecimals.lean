import Criteria.Proofs.RoundingTwice

/-!
# Short decimals near midpoints

A short decimal seldom comes very near to a midpoint between two floats. Where it does, the midpoint
over the spacing of floats and the grid of decimals make a fraction with a small denominator that is
nearly the quotient of the two. For each spacing such a fraction is one of the two neighbours between
which the quotient lies, so there are only few of them to look at.
-/

namespace Criteria
set_option autoImplicit false

/-- Two fractions, one on each side of a quotient. -/
structure Bracket where
  lowNum : Nat
  lowDen : Nat
  highNum : Nat
  highDen : Nat

namespace Bracket

/-- How often a fraction is added to the one on the other side without passing the quotient, as far
as the denominators leave room. -/
def steps (gap step room : Nat) : Nat := if step = 0 then room else min (gap / step) room

/-- Moves both fractions toward `b / a`, in turn, as far as denominators up to `bound` go. This is a
search only; what it finds is judged by `Tight`. -/
def narrow (a b bound : Nat) : Nat → Bracket → Bracket
  | 0, x => x
  | fuel + 1, ⟨p, q, r, s⟩ =>
    if bound < q + s then ⟨p, q, r, s⟩
    else
      let i := steps (q * b - p * a) (r * a - s * b) ((bound - q) / s)
      let p := p + i * r
      let q := q + i * s
      let j := steps (r * a - s * b) (q * b - p * a) ((bound - s) / q)
      narrow a b bound fuel ⟨p, q, r + j * p, s + j * q⟩

/-- The fractions are neighbours around `b / a` among those with denominators up to `bound`. -/
structure Tight (x : Bracket) (a b bound : Nat) : Prop where
  adjacent : x.highNum * x.lowDen = x.lowNum * x.highDen + 1
  complete : bound < x.lowDen + x.highDen
  lowDen_le : x.lowDen ≤ bound
  highDen_le : x.highDen ≤ bound
  low : x.lowNum * a ≤ x.lowDen * b
  high : x.highDen * b ≤ x.highNum * a

instance (x : Bracket) (a b bound : Nat) : Decidable (x.Tight a b bound) :=
  decidable_of_iff (x.highNum * x.lowDen = x.lowNum * x.highDen + 1 ∧
    bound < x.lowDen + x.highDen ∧ x.lowDen ≤ bound ∧ x.highDen ≤ bound ∧
    x.lowNum * a ≤ x.lowDen * b ∧ x.highDen * b ≤ x.highNum * a)
    ⟨fun ⟨h₁, h₂, h₃, h₄, h₅, h₆⟩ => ⟨h₁, h₂, h₃, h₄, h₅, h₆⟩,
      fun ⟨h₁, h₂, h₃, h₄, h₅, h₆⟩ => ⟨h₁, h₂, h₃, h₄, h₅, h₆⟩⟩

namespace Tight
variable {x : Bracket} {a b bound : Nat} (h : x.Tight a b bound)
include h

theorem lowDen_pos : 0 < x.lowDen := by
  refine Nat.pos_of_ne_zero fun hzero => ?_
  have := h.adjacent
  rw [hzero, Nat.mul_zero] at this
  omega

theorem highDen_pos : 0 < x.highDen := by
  have := h.complete
  have := h.lowDen_le
  omega

theorem low_coprime : Nat.Coprime x.lowDen x.lowNum := by
  have hdvd : Nat.gcd x.lowDen x.lowNum ∣ x.lowNum * x.highDen + 1 := by
    rw [← h.adjacent]
    exact Nat.dvd_mul_left_of_dvd (Nat.gcd_dvd_left ..) _
  have hdvd' : Nat.gcd x.lowDen x.lowNum ∣ x.lowNum * x.highDen :=
    Nat.dvd_mul_right_of_dvd (Nat.gcd_dvd_right ..) _
  exact Nat.dvd_one.mp ((Nat.dvd_add_right hdvd').mp hdvd)

theorem high_coprime : Nat.Coprime x.highDen x.highNum := by
  have hdvd : Nat.gcd x.highDen x.highNum ∣ x.lowNum * x.highDen + 1 := by
    rw [← h.adjacent]
    exact Nat.dvd_mul_right_of_dvd (Nat.gcd_dvd_right ..) _
  have hdvd' : Nat.gcd x.highDen x.highNum ∣ x.lowNum * x.highDen :=
    Nat.dvd_mul_left_of_dvd (Nat.gcd_dvd_left ..) _
  exact Nat.dvd_one.mp ((Nat.dvd_add_right hdvd').mp hdvd)

/-- No fraction with a small denominator lies strictly between neighbours. -/
theorem outside (num : Nat) {den : Nat} (hden : den ≤ bound) :
    num * x.lowDen ≤ x.lowNum * den ∨ x.highNum * den ≤ num * x.highDen := by
  by_contra hbetween
  obtain ⟨hlow, hhigh⟩ := not_or.mp hbetween
  have hlow := Nat.mul_le_mul_right x.highDen (Nat.not_le.mp hlow)
  have hhigh := Nat.mul_le_mul_right x.lowDen (Nat.not_le.mp hhigh)
  have hgap : x.highNum * den * x.lowDen = x.lowNum * den * x.highDen + den := by
    rw [Nat.mul_right_comm, h.adjacent]
    ring
  have hswap : num * x.highDen * x.lowDen = num * x.lowDen * x.highDen := Nat.mul_right_comm ..
  have hcomplete := h.complete
  rw [Nat.succ_mul] at hlow hhigh
  omega

end Tight

section Grazing
variable {bits a b num den p q : Nat}

theorem grazes_iff_of_mul_eq (hden : 0 < den) (hq : 0 < q) (h : num * q = p * den) :
    Grazes bits (num * a) (den * b) ↔ Grazes bits (p * a) (q * b) := by
  have hnum : num * a * q = p * a * den := by rw [Nat.mul_right_comm, h, Nat.mul_right_comm]
  have hmid : den * b * q = q * b * den := by ring
  rw [← grazes_mul_right_iff hq, hnum, hmid, grazes_mul_right_iff hden]

variable (pos : 0 < a) (hle : b ≤ a) (hsmall : den * q < 2 ^ bits)
include pos hle hsmall

/-- What grazes is less than one denominator away. -/
theorem lt_add_of_near {x y : Nat} (hnear : 2 ^ bits * y ≤ 2 ^ bits * x + den * q * b) :
    y < x + a := by
  have hslack : den * q * b < 2 ^ bits * a := by
    calc den * q * b ≤ den * q * a := Nat.mul_le_mul_left _ hle
      _ < 2 ^ bits * a := Nat.mul_lt_mul_of_pos_right hsmall pos
  refine Nat.lt_of_mul_lt_mul_left (a := 2 ^ bits) ?_
  rw [Nat.mul_add]
  omega

/-- A number cannot graze a quotient from behind a fraction with a small denominator. -/
theorem eq_of_grazes_below (hend : p * a ≤ q * b) (hbehind : num * q ≤ p * den)
    (hgrazes : Grazes bits (num * a) (den * b)) : num * q = p * den := by
  by_contra hne
  have hstep : num * q + 1 ≤ p * den := Nat.lt_of_le_of_ne hbehind hne
  have hgap : num * q * a + a ≤ den * q * b := by
    calc num * q * a + a = (num * q + 1) * a := (Nat.succ_mul ..).symm
      _ ≤ p * den * a := Nat.mul_le_mul_right a hstep
      _ = p * a * den := Nat.mul_right_comm ..
      _ ≤ q * b * den := Nat.mul_le_mul_right den hend
      _ = den * q * b := by ring
  have hnear : 2 ^ bits * (den * q * b) ≤ 2 ^ bits * (num * q * a) + den * q * b := by
    have hbound := Nat.mul_le_mul_right q hgrazes.2
    obtain ⟨n, hn⟩ := Nat.exists_eq_succ_of_ne_zero (Nat.two_pow_pos bits).ne'
    rw [hn, Nat.succ_eq_add_one, Nat.add_sub_cancel] at hbound
    rw [hn, Nat.succ_eq_add_one]
    calc (n + 1) * (den * q * b) = n * (den * b) * q + den * q * b := by ring
      _ ≤ (n + 1) * (num * a) * q + den * q * b := Nat.add_le_add_right hbound _
      _ = (n + 1) * (num * q * a) + den * q * b := by ring
  exact Nat.not_le.mpr (lt_add_of_near pos hle hsmall hnear) hgap

theorem eq_of_grazes_above (hend : q * b ≤ p * a) (hbehind : p * den ≤ num * q)
    (hgrazes : Grazes bits (num * a) (den * b)) : num * q = p * den := by
  by_contra hne
  have hstep : p * den + 1 ≤ num * q := Nat.lt_of_le_of_ne hbehind (Ne.symm hne)
  have hgap : den * q * b + a ≤ num * q * a := by
    calc den * q * b + a = q * b * den + a := by ring
      _ ≤ p * a * den + a := Nat.add_le_add_right (Nat.mul_le_mul_right den hend) a
      _ = (p * den + 1) * a := by ring
      _ ≤ num * q * a := Nat.mul_le_mul_right a hstep
  have hnear : 2 ^ bits * (num * q * a) ≤ 2 ^ bits * (den * q * b) + den * q * b := by
    calc 2 ^ bits * (num * q * a) = 2 ^ bits * (num * a) * q := by ring
      _ ≤ (2 ^ bits + 1) * (den * b) * q := Nat.mul_le_mul_right q hgrazes.1
      _ = 2 ^ bits * (den * q * b) + den * q * b := by ring
  exact Nat.not_le.mpr (lt_add_of_near pos hle hsmall hnear) hgap

end Grazing

/-- A number that grazes the quotient makes the same fraction as one of the neighbours. -/
theorem Tight.mul_eq_of_grazes {x : Bracket} {bits a b bound num den : Nat}
    (h : x.Tight a b bound) (pos : 0 < a) (hle : b ≤ a) (hden : den ≤ bound)
    (hsmall : bound * bound < 2 ^ bits) (hgrazes : Grazes bits (num * a) (den * b)) :
    num * x.lowDen = x.lowNum * den ∨ num * x.highDen = x.highNum * den := by
  rcases h.outside num hden with hout | hout
  · have hsmall := Nat.lt_of_le_of_lt (Nat.mul_le_mul hden h.lowDen_le) hsmall
    exact .inl (eq_of_grazes_below pos hle hsmall h.low hout hgrazes)
  · have hsmall := Nat.lt_of_le_of_lt (Nat.mul_le_mul hden h.highDen_le) hsmall
    exact .inr (eq_of_grazes_above pos hle hsmall h.high hout hgrazes)

end Bracket

/-
A midpoint is a number of half spacings, of 25 bits, and a double has 53 bits. So what a double does
not tell from a midpoint is nearer to it than a spacing by 28 bits.
-/

namespace Midpoint

/-- The distance of the floats in a block of ranks, in tens to the minus `fineness`. -/
def spacing (block : Nat) : Nat := 2 ^ block * 5 ^ Format.single.fineness

/-- Ten to this is, in the same units, the least power of ten that is at least half the distance. -/
def drop (block : Nat) : Nat := 104 + (301 * block + 847) / 1000

/-- Twice that power: twice a decimal counts in it, as twice a midpoint counts in the distance. -/
def grid (block : Nat) : Nat := 2 * 10 ^ drop block

def bracket (block : Nat) : Bracket :=
  .narrow (grid block) (spacing block) (2 ^ 25) 40 ⟨0, 1, 1, 1⟩

/-- The midpoints, by block and number, that a decimal on the grid grazes without being on them. -/
def grazed : List (Nat × Nat) := [(42, 22841339), (43, 22841339), (100, 28874659)]

/-- A fraction `num / den` that does not stand for a decimal grazing a midpoint, unless the decimal is
on the midpoint or the midpoint is known. -/
def Settled (block num den : Nat) : Prop :=
  Grazes 53 (num * grid block) (den * spacing block) →
    num * grid block = den * spacing block ∨ (block, den) ∈ grazed

instance (block num den : Nat) : Decidable (Settled block num den) :=
  inferInstanceAs (Decidable (_ → _))

/-- What is computed for each block. -/
structure Checked (block : Nat) : Prop where
  tight : (bracket block).Tight (grid block) (spacing block) (2 ^ 25)
  low : Settled block (bracket block).lowNum (bracket block).lowDen
  high : Settled block (bracket block).highNum (bracket block).highDen
  spacing_le : spacing block ≤ grid block
  least : 2 ^ 28 * (2 * 10 ^ (drop block - 1)) < (2 ^ 28 - 1) * spacing block

instance (block : Nat) : Decidable (Checked block) :=
  decidable_of_iff ((bracket block).Tight (grid block) (spacing block) (2 ^ 25) ∧
    Settled block (bracket block).lowNum (bracket block).lowDen ∧
    Settled block (bracket block).highNum (bracket block).highDen ∧
    spacing block ≤ grid block ∧
    2 ^ 28 * (2 * 10 ^ (drop block - 1)) < (2 ^ 28 - 1) * spacing block)
    ⟨fun ⟨h₁, h₂, h₃, h₄, h₅⟩ => ⟨h₁, h₂, h₃, h₄, h₅⟩,
      fun ⟨h₁, h₂, h₃, h₄, h₅⟩ => ⟨h₁, h₂, h₃, h₄, h₅⟩⟩

theorem checked : ∀ block < 255, Checked block := by decide +kernel

theorem lt_of_mem_grazed {block den : Nat} (h : (block, den) ∈ grazed) : 2 ^ 24 < den := by
  have hall : ∀ x ∈ grazed, 2 ^ 24 < x.2 := by decide
  exact hall _ h

/-- A denominator that is reduced and more than half of the bound leaves no other. -/
theorem eq_of_coprime {num den p q : Nat} (hq : Nat.Coprime q p) (hlarge : 2 ^ 24 < q)
    (pos : 0 < den) (hden : den < 2 ^ 25) (h : num * q = p * den) : den = q := by
  have hdvd : q ∣ den := hq.dvd_of_dvd_mul_left ⟨num, by rw [← h, Nat.mul_comm]⟩
  obtain ⟨k, rfl⟩ := hdvd
  have hk : 0 < k := Nat.pos_of_mul_pos_left pos
  obtain rfl : k = 1 := by
    by_contra hne
    have hdouble : q * 2 ≤ q * k := Nat.mul_le_mul_left q (by omega)
    omega
  exact Nat.mul_one q

theorem Settled.of_mul_eq {block num den p q : Nat} (h : Settled block p q) (hq : 0 < q)
    (hcoprime : Nat.Coprime q p) (pos : 0 < den) (hden : den < 2 ^ 25) (heq : num * q = p * den)
    (hgrazes : Grazes 53 (num * grid block) (den * spacing block)) :
    num * grid block = den * spacing block ∨ (block, den) ∈ grazed := by
  rcases h ((Bracket.grazes_iff_of_mul_eq pos hq heq).mp hgrazes) with h | h
  · left
    refine Nat.eq_of_mul_eq_mul_right hq ?_
    calc num * grid block * q = p * grid block * den := by
          rw [Nat.mul_right_comm, heq, Nat.mul_right_comm]
      _ = den * spacing block * q := by rw [h]; ring
  · rw [eq_of_coprime hcoprime (lt_of_mem_grazed h) pos hden heq]
    exact .inr h

/-- A decimal on the grid of a block or on a coarser one grazes only the midpoints that it is equal
to, and the known ones. -/
theorem eq_or_mem_grazed {block digits den d : Nat} (hblock : block < 255) (pos : 0 < den)
    (hden : den < 2 ^ 25) (hgrid : (2 ^ 28 - 1) * spacing block ≤ 2 ^ 28 * (2 * 10 ^ d))
    (hgrazes : Grazes 53 (2 * (digits * 10 ^ d)) (den * spacing block)) :
    2 * (digits * 10 ^ d) = den * spacing block ∨ (block, den) ∈ grazed := by
  have hchecked := checked block hblock
  have hdrop : drop block ≤ d := by
    by_contra hlt
    have hpow : 10 ^ d ≤ 10 ^ (drop block - 1) := Nat.pow_le_pow_right (by omega) (by omega)
    have hleast := hchecked.least
    omega
  obtain ⟨k, rfl⟩ := Nat.exists_eq_add_of_le hdrop
  have hnum : 2 * (digits * 10 ^ (drop block + k)) = digits * 10 ^ k * grid block := by
    rw [grid, Nat.pow_add]
    ring
  rw [hnum] at hgrazes ⊢
  have htight := hchecked.tight
  have hgridPos : 0 < grid block := Nat.mul_pos Nat.two_pos (Nat.pow_pos (by omega))
  rcases htight.mul_eq_of_grazes hgridPos hchecked.spacing_le (Nat.le_of_lt hden) (by decide)
    hgrazes with h | h
  · exact hchecked.low.of_mul_eq htight.lowDen_pos htight.low_coprime pos hden h hgrazes
  · exact hchecked.high.of_mul_eq htight.highDen_pos htight.high_coprime pos hden h hgrazes

end Midpoint
end Criteria
