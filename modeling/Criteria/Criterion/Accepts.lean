import Criteria.Criterion.Basic

/-!
Which inputs meet a criterion. Integers are compared exactly with integers and as floats with
floats, texts up to letter case, and a range sees the float view of its input and of its bounds.
-/

namespace Criteria
set_option autoImplicit false

/-- Texts and truth values can be equal or not, nothing else. -/
def Operator.holdsAlike (op : Operator) (same : Bool) : Bool :=
  match op with
  | .equal => same
  | .notEqual => !same
  | _ => false

namespace Value

/-- Whether an operator holds between an input and a reference. Values of kinds that cannot be
compared satisfy none. -/
def satisfies (input : Value) (op : Operator) (reference : Value) : Bool :=
  match input, reference with
  | integer a, integer b => op.holdsInt a.toInt b.toInt
  | integer _, float _ | float _, integer _ | float _, float _ =>
    op.holdsFloat input.toSingle reference.toSingle
  | text a, text b => op.holdsAlike (Text.sameLetters a.toList b.toList)
  | boolean a, boolean b => op.holdsAlike (a == b)
  | _, _ => false

end Value

def Bound.admits (b : Bound) (x : Single) : Bool := b.op.holdsFloat x b.value.toSingle

namespace Criterion

def accepts (c : Criterion) (input : Value) : Bool :=
  match c with
  | single op reference => input.satisfies op reference
  | range lower upper =>
    input.isPresent && lower.admits input.toSingle && upper.admits input.toSingle

end Criterion
end Criteria
