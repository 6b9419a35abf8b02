import Criteria.Binary.Rounding

/-!
Arithmetic of one format. Distance and quotient round once; floor and remainder are exact.
-/

namespace Criteria.Binary
set_option autoImplicit false
variable {f : Format}

/-- The rounded magnitude of the difference. Equal infinities have none. -/
def distance : Binary f → Binary f → Binary f
  | .nan, _ | _, .nan => .nan
  | .infinite s, .infinite t => if s = t then .nan else .infinite false
  | .infinite _, .finite _ _ | .finite _ _, .infinite _ => .infinite false
  | x@(.finite _ _), y@(.finite _ _) => ofUnits false (x.signedUnits - y.signedUnits).natAbs 1

/-- The rounded quotient. A positive magnitude over zero is infinite, zero over zero no number. -/
def quotient : Binary f → Binary f → Binary f
  | .nan, _ | _, .nan => .nan
  | .infinite _, .infinite _ => .nan
  | .infinite s, .finite t _ => .infinite (s != t)
  | .finite s _, .infinite t => zero (s != t)
  | .finite s a, .finite t b =>
    if f.units b = 0 then
      if f.units a = 0 then .nan else .infinite (s != t)
    else ofUnits (s != t) (f.units a * f.one) (f.units b)

/-- The greatest integer not above. The sign of a zero is kept. -/
def floor : Binary f → Binary f
  | .finite false r => ofUnits false (f.units r / f.one * f.one) 1
  | .finite true r => ofUnits true ((f.units r + (f.one - 1)) / f.one * f.one) 1
  | x => x

/-- The remainder of the quotient truncated toward zero, with the sign of the dividend. -/
def remainder : Binary f → Binary f → Binary f
  | .nan, _ | _, .nan | .infinite _, _ => .nan
  | x@(.finite _ _), .infinite _ => x
  | .finite s a, .finite _ b =>
    if f.units b = 0 then .nan else ofUnits s (f.units a % f.units b) 1

/-- The integer part, held within 32 bits; zero for what is not a number. -/
def toInt32 : Binary f → Int32
  | .nan => 0
  | .infinite false => Int32.maxValue
  | .infinite true => Int32.minValue
  | .finite false r => Int32.ofInt (min (f.units r / f.one) (2 ^ 31 - 1))
  | .finite true r => Int32.ofInt (max (-(f.units r / f.one)) (-2 ^ 31))

end Criteria.Binary
