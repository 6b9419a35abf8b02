/-!
Binary floating point. A format fixes the width of the fraction and of the exponent; the finite
magnitudes of a format are numbered from zero upward, and that number, the rank, is also their bit
pattern. `units` gives the exact value of a rank as a multiple of the least positive magnitude.
-/

namespace Criteria
set_option autoImplicit false

-- A power of a number is the core one, also in modules that import algebra.
attribute [instance (2000), default_instance (20000)] instPowNat

structure Format where
  fractionBits : Nat
  exponentBits : Nat
  deriving DecidableEq, Repr

namespace Format

def single : Format := ⟨23, 8⟩

def double : Format := ⟨52, 11⟩

/-- The number of finite magnitudes, and the rank of infinity. -/
def top (f : Format) : Nat := (2 ^ f.exponentBits - 1) * 2 ^ f.fractionBits

/-- The least positive magnitude is two to the minus `fineness`. -/
def fineness (f : Format) : Nat := 2 ^ (f.exponentBits - 1) - 2 + f.fractionBits

/-- How many least magnitudes make up one. -/
def one (f : Format) : Nat := 2 ^ f.fineness

/-- The magnitude of a rank in least magnitudes: ranks below two to the `fractionBits` are equally
spaced, and every further block of as many ranks doubles the spacing. -/
def units (f : Format) (rank : Nat) : Nat :=
  if rank < 2 ^ f.fractionBits then rank
  else (2 ^ f.fractionBits + rank % 2 ^ f.fractionBits) * 2 ^ (rank / 2 ^ f.fractionBits - 1)

end Format

/-- A datum of a format: not a number, an infinity, or a finite magnitude with a sign. Zero has
both signs. -/
inductive Binary (f : Format) where
  | nan
  | infinite (negative : Bool)
  | finite (negative : Bool) (rank : Fin f.top)
  deriving DecidableEq, Repr

abbrev Single := Binary Format.single

abbrev Double := Binary Format.double

namespace Binary
variable {f : Format}

/-- The magnitude of the given rank, or infinity from the top rank on. -/
def ofRank (negative : Bool) (rank : Nat) : Binary f :=
  if h : rank < f.top then .finite negative ⟨rank, h⟩ else .infinite negative

def zero (negative : Bool) : Binary f := ofRank negative 0

def isFinite : Binary f → Bool
  | .finite _ _ => true
  | _ => false

/-- The exact value in least magnitudes, zero if there is none. -/
def signedUnits : Binary f → Int
  | .finite false r => f.units r
  | .finite true r => -f.units r
  | _ => 0

/-- The place of a number among all numbers of its format: infinities lie outside, both zeros at
zero, and what is not a number has none. -/
def position? : Binary f → Option Int
  | .nan => none
  | .infinite false => some f.top
  | .infinite true => some (-f.top)
  | .finite false r => some r
  | .finite true r => some (-r)

/-- Less than; false of anything that is not a number. -/
def lt (x y : Binary f) : Bool :=
  match x.position?, y.position? with
  | some i, some j => i < j
  | _, _ => false

/-- At most; false of anything that is not a number. -/
def le (x y : Binary f) : Bool :=
  match x.position?, y.position? with
  | some i, some j => i ≤ j
  | _, _ => false

@[simp] theorem ofRank_val (negative : Bool) (r : Fin f.top) :
    (ofRank negative r.val : Binary f) = .finite negative r := by
  simp [ofRank]

theorem ofRank_eq_infinite {negative : Bool} {r : Nat} (h : f.top ≤ r) :
    (ofRank negative r : Binary f) = .infinite negative := by
  simp [ofRank, Nat.not_lt.mpr h]

end Binary
end Criteria
