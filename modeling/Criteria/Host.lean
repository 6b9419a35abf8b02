import Criteria.Memo

/-!
Objects of a dynamically typed host. They are converted before anything is done with them. An object
can be an instance of several types: a truth value is also an integer, and a member of an enumeration
can be an integer or a text besides. So a conversion asks about the types in a fixed order, and takes
the view of the object that belongs to the first one. Taking a view may raise an error.
-/

namespace Criteria.Host
set_option autoImplicit false

/-- The types that a conversion asks about. -/
inductive Class where
  | enumeration
  | bool
  | int
  | float
  | str
  deriving DecidableEq, Repr

/-- An object as a conversion sees it. -/
structure Object where
  isNone : Bool
  isInstance : Class → Bool
  name : Except Error String
  truth : Except Error Bool
  int64 : Except Error Int64
  double : Except Error Double
  text : Except Error String
  typeName : Except Error String

namespace Object

/-- The value of an integer. One that has no view in 64 bits is taken as a double. -/
def integerValue (o : Object) : Except Error Value :=
  match o.int64 with
  | .ok n => .ok (.ofInt n.toInt)
  | .error _ => o.double.map fun x => .float x.convert

/-- A member of an enumeration stands for its name, whatever else it is. -/
def toValue (o : Object) : Except Error Value :=
  if o.isNone then .ok .absent
  else if o.isInstance .enumeration then o.name.map .text
  else if o.isInstance .bool then o.truth.map .boolean
  else if o.isInstance .int then o.integerValue
  else if o.isInstance .float then o.double.map fun x => .float x.convert
  else if o.isInstance .str then o.text.map .text
  else o.typeName.bind fun typeName => .error (.unsupportedValue typeName)

def noView (typeName : String) : Error :=
  .raised "TypeError" ("no such view of an object of type " ++ typeName)

/-- An object of a type that no conversion asks about. -/
def other (typeName : String) : Object where
  isNone := false
  isInstance _ := false
  name := .error (noView typeName)
  truth := .error (noView typeName)
  int64 := .error (noView typeName)
  double := .error (noView typeName)
  text := .error (noView typeName)
  typeName := .ok typeName

def none : Object := { other "none" with isNone := true }

/-- An integer of any size. It is rounded as a double, and too large if that overflows. -/
def int (n : Int) : Object :=
  { other "int" with
    isInstance := (· == .int)
    int64 :=
      if -2 ^ 63 ≤ n ∧ n < 2 ^ 63 then .ok (.ofInt n)
      else .error (.raised "OverflowError" "int too large to convert")
    double :=
      let x : Double := .ofInt n
      if x.isFinite then .ok x else .error .integerTooLarge }

/-- A truth value is the integer one or zero. -/
def bool (b : Bool) : Object :=
  { int b.toInt with
    isInstance := fun c => c == .bool || c == .int
    truth := .ok b
    typeName := .ok "bool" }

def float (x : Double) : Object :=
  { other "float" with isInstance := (· == .float), double := .ok x }

def str (s : String) : Object :=
  { other "str" with isInstance := (· == .str), text := .ok s }

/-- A member of an enumeration, which can be an object of another type, too. -/
def member (name : Except Error String) (o : Object) : Object :=
  { o with isNone := false, isInstance := fun c => c == .enumeration || o.isInstance c, name }

end Object

def ofValue : Value → Object
  | .absent => .none
  | .integer n => .int n.toInt
  | .float x => .float x.convert
  | .boolean b => .bool b
  | .text s => .str s

def accepts (c : Criterion) (o : Object) : Except Error Bool := do
  return c.accepts (← o.toValue)

/-- Whether an object meets the criterion of a text. An object that cannot be converted leaves the
memo as it is. -/
def check (m : Memo) (text : String) (o : Object) : Except Error Bool × Memo :=
  match o.toValue with
  | .ok v => let (b, m) := m.accepts text v; (.ok b, m)
  | .error e => (.error e, m)

def criterion (text : Option String) : Criterion := (text.map Criterion.parse).getD .blank

/-- A criterion as a constructor call around its shown expression, in which nothing is escaped. -/
def represent (c : Criterion) : String := "Comparison('" ++ c.display ++ "')"

end Criteria.Host
