/-!
Stretches of evenly spaced code points, the rows of a character mapping.
-/

namespace Criteria.Text
set_option autoImplicit false

/-- The code points `first`, `first + step`, up to `last`, each of which maps to itself plus
`shift`. -/
structure Stretch where
  first : Nat
  last : Nat
  step : Nat
  shift : Int
  deriving Repr, DecidableEq

namespace Stretch

def covers (r : Stretch) (n : Nat) : Bool :=
  r.first ≤ n && n ≤ r.last && (n - r.first) % r.step == 0

def image (r : Stretch) (n : Nat) : Nat := (n + r.shift).toNat

end Stretch

/-- The image of a character under the first stretch that covers it, if one does. -/
def mapped? (table : List Stretch) (c : Char) : Option Char :=
  (table.find? (·.covers c.toNat)).map fun r => Char.ofNat (r.image c.toNat)

end Criteria.Text
