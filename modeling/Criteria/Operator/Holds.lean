import Criteria.Binary.Arithmetic
import Criteria.Operator.Basic

/-!
When an operator holds between an input and a reference, over the integers and over single floats.
-/

namespace Criteria
set_option autoImplicit false

/-- The float nearest to one part in a hundred thousand. Floats closer than this count as equal. -/
def tolerance : Single := .ofRank false 0x3727C5AC

/-- Within tolerance. No number is close to an infinity, nor an infinity to itself. -/
def Binary.isClose (a b : Single) : Bool := (a.distance b).lt tolerance

namespace Operator

/-- The verdict over the integers. Quotients are truncated toward zero, remainders take the sign of
the input, and neither operator holds of a zero reference. -/
def holdsInt (op : Operator) (a b : Int) : Bool :=
  match op with
  | equal => a == b
  | notEqual => a != b
  | less => a < b
  | lessEqual => a ≤ b
  | greater => b < a
  | greaterEqual => b ≤ a
  | quotient => b != 0 && a.tdiv b == b
  | remainder => b != 0 && a.tmod b == b

/-- The verdict over floats: equality within tolerance, and quotients taken to the integer
below. -/
def holdsFloat (op : Operator) (a b : Single) : Bool :=
  match op with
  | equal => a.isClose b
  | notEqual => !a.isClose b
  | less => a.lt b
  | lessEqual => a.le b
  | greater => b.lt a
  | greaterEqual => b.le a
  | quotient => (a.quotient b).floor.isClose b
  | remainder => (a.remainder b).isClose b

end Operator
end Criteria
