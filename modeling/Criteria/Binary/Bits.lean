import Criteria.Binary.Format

/-!
The bit pattern of a datum: sign, exponent and fraction, the latter two together being the rank.
-/

namespace Criteria
set_option autoImplicit false

def Format.signBit (f : Format) : Nat := 2 ^ (f.fractionBits + f.exponentBits)

/-- The pattern written for what is not a number: a quiet one without sign and payload. -/
def Format.quietNan (f : Format) : Nat := f.top + 2 ^ (f.fractionBits - 1)

theorem Format.top_add (f : Format) : f.top + 2 ^ f.fractionBits = f.signBit := by
  have : 1 ≤ 2 ^ f.exponentBits := Nat.one_le_two_pow
  rw [Format.top, Format.signBit, Nat.pow_add, Nat.mul_comm (2 ^ f.fractionBits), ← Nat.succ_mul]
  congr 1
  omega

namespace Binary
variable {f : Format}

def toBits : Binary f → Nat
  | .nan => f.quietNan
  | .infinite s => f.top + if s then f.signBit else 0
  | .finite s r => r + if s then f.signBit else 0

/-- The datum of a pattern. All patterns above infinity are the same datum. -/
def ofBits (n : Nat) : Binary f :=
  let r := n % f.signBit
  if f.top < r then .nan else ofRank (n / f.signBit % 2 == 1) r

theorem ofBits_toBits (hf : 0 < f.fractionBits) (x : Binary f) :
    ofBits x.toBits = x := by
  have htop := f.top_add
  have pos : 0 < 2 ^ f.fractionBits := Nat.two_pow_pos _
  have half : 2 ^ (f.fractionBits - 1) < 2 ^ f.fractionBits :=
    Nat.pow_lt_pow_right (by decide) (by omega)
  have halfPos : 0 < 2 ^ (f.fractionBits - 1) := Nat.two_pow_pos _
  have body (r : Nat) (hr : r < f.signBit) (s : Bool) :
      (r + if s then f.signBit else 0) % f.signBit = r ∧
      ((r + if s then f.signBit else 0) / f.signBit % 2 == 1) = s := by
    cases s with
    | false => simp [Nat.mod_eq_of_lt hr, Nat.div_eq_of_lt hr]
    | true =>
      have : 0 < f.signBit := by omega
      simp [Nat.mod_eq_of_lt hr, Nat.add_div_right r this, Nat.div_eq_of_lt hr]
  cases x with
  | nan =>
    have : f.quietNan % f.signBit = f.quietNan := Nat.mod_eq_of_lt (by rw [Format.quietNan]; omega)
    have h : f.top < f.quietNan := by rw [Format.quietNan]; omega
    simp [ofBits, toBits, this, h]
  | infinite s =>
    obtain ⟨hm, hs⟩ := body f.top (by omega) s
    simp only [ofBits, toBits, hm, hs, Nat.lt_irrefl, if_false]
    exact ofRank_eq_infinite (Nat.le_refl _)
  | finite s r =>
    have hr := r.isLt
    obtain ⟨hm, hs⟩ := body r (by omega) s
    have : ¬ f.top < r.val := by omega
    simp only [ofBits, toBits, hm, hs, this, if_false, ofRank_val]

end Binary
end Criteria
