import Criteria.Decimal.Basic

/-!
The shortest decimal of a positive binary magnitude: the fewest digits that are read back as that
magnitude, and of those the nearest to its exact value.
-/

namespace Criteria
set_option autoImplicit false

/-- Which of two decimals is taken where both are equally near. -/
inductive Tie where
  | up
  | toEven
  deriving DecidableEq, Repr

namespace Tie

/-- Whether the lower of two neighbours is taken, by twice the part above it and their distance. -/
def takesLower (tie : Tie) (lower twice distance : Nat) : Bool :=
  twice < distance || (twice == distance && tie == .toEven && lower % 2 == 0)

end Tie

namespace Shortest
variable (f : Format)

/-- Every magnitude is a whole number of tens to the minus `fineness`. -/
def expanded (rank : Nat) : Nat := f.units rank * 5 ^ f.fineness

def readsBack (rank digits : Nat) (exponent : Int) : Bool :=
  Decimal.toBinary f ⟨false, digits, exponent⟩ == .ofRank false rank

/-- The decimal on the grid of `10 ^ drop` units of the expansion: the nearer neighbour of the
magnitude, or the only one that is read back. -/
def onGrid? (tie : Tie) (rank drop : Nat) : Option Decimal :=
  let n := expanded f rank
  let exponent : Int := drop - f.fineness
  let lower := n / 10 ^ drop
  let fits := readsBack f rank lower exponent
  let fitsAbove := readsBack f rank (lower + 1) exponent
  if fits && (!fitsAbove || tie.takesLower lower (2 * (n % 10 ^ drop)) (10 ^ drop)) then
    some ⟨false, lower, exponent⟩
  else if fitsAbove then some ⟨false, lower + 1, exponent⟩
  else none

/-- The decimal on the coarsest grid that holds one. The finest grid holds the exact value. -/
def decimal (tie : Tie) (rank : Nat) : Decimal :=
  let length := (Nat.toDigits 10 (expanded f rank)).length
  ((List.range length).reverse.findSome? (onGrid? f tie rank)).getD
    ⟨false, expanded f rank, -f.fineness⟩

end Shortest
end Criteria
