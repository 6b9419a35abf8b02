import Criteria.Binary.Format

/-!
Rounding to the nearest datum of a format, ties going to the even rank. Every inexact operation
rounds an exact quotient of naturals once.
-/

namespace Criteria
set_option autoImplicit false

/-- The natural nearest to a quotient, ties going to the even one. -/
def divEven (num den : Nat) : Nat :=
  let q := num / den
  let r := num % den
  if 2 * r < den then q
  else if den < 2 * r then q + 1
  else q + q % 2

/-- How often the least spacing doubles up to a quotient of least magnitudes. -/
def Format.doublings (f : Format) (num den : Nat) : Nat := (num / den).log2 - f.fractionBits

/-- The rank nearest to `num / den` least magnitudes. The quotient is divided further by the
spacing of the ranks around it; a mantissa that rounds up to the next power of two carries into the
next block by itself. -/
def Format.nearestRank (f : Format) (num den : Nat) : Nat :=
  divEven num (den * 2 ^ f.doublings num den) + f.doublings num den * 2 ^ f.fractionBits

namespace Binary
variable {f : Format}

/-- The datum nearest to `num / den` least magnitudes. -/
def ofUnits (negative : Bool) (num den : Nat) : Binary f :=
  ofRank negative (f.nearestRank num den)

def ofInt (n : Int) : Binary f := ofUnits (n < 0) (n.natAbs * f.one) 1

def convert {g : Format} : Binary f → Binary g
  | .nan => .nan
  | .infinite negative => .infinite negative
  | .finite negative r => ofUnits negative (f.units r * g.one) f.one

end Binary

end Criteria
