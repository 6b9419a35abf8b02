import Criteria.Value.Basic

/-!
Criteria: one operator against a reference, or two bounds that must both hold.
-/

namespace Criteria
set_option autoImplicit false

/-- One side of a range, read as the input, the operator, the value. -/
structure Bound where
  op : Operator
  value : Value
  deriving DecidableEq

inductive Criterion where
  | single (op : Operator) (reference : Value)
  | range (lower upper : Bound)
  deriving DecidableEq

def Bound.agrees (a b : Bound) : Bool := a.op == b.op && a.value.agrees b.value

namespace Criterion

/-- The criterion of a blank text: equality with an absent value, which nothing meets. -/
def blank : Criterion := single .equal .absent

def isRange : Criterion → Bool
  | single _ _ => false
  | range _ _ => true

/-- Same form, same operators, and values that agree. -/
def agrees : Criterion → Criterion → Bool
  | single o a, single p b => o == p && a.agrees b
  | range l u, range m v => l.agrees m && u.agrees v
  | _, _ => false

def differs (c d : Criterion) : Bool := !c.agrees d

end Criterion
end Criteria
