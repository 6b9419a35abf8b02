import Criteria.Json.Scalar
import Criteria.Value.Basic

/-!
Values as JSON texts. Every value is written as a scalar. A scalar is taken as a value of the first
kind that it fits, in the order of the kinds.
-/

namespace Criteria
set_option autoImplicit false

namespace Json.Scalar
variable {f : Format}

def isNull : Scalar f → Bool
  | null => true
  | _ => false

def int32? : Scalar f → Option Int32
  | integer n => Criteria.int32? n
  | _ => none

/-- Integers are floats, too, and rounded once. -/
def single? : Scalar f → Option Single
  | integer n => some (.ofInt n)
  | float x => some x.convert
  | _ => none

def boolean? : Scalar f → Option Bool
  | boolean b => some b
  | _ => none

def text? : Scalar f → Option String
  | text s => some s
  | _ => none

end Json.Scalar

namespace Value

def toScalar : Value → Json.Scalar .single
  | absent => .null
  | integer n => .integer n.toInt
  | float x => .float x
  | boolean b => .boolean b
  | text s => .text s

/-- The kinds are tried one after the other. -/
def ofScalar? (s : Json.Scalar .double) : Option Value :=
  (if s.isNull then some absent else none) <|> s.int32?.map integer <|> s.single?.map float <|>
    s.boolean?.map boolean <|> s.text?.map text

/-- Some kind fits, and only an integer fits two of them. -/
theorem ofScalar?_eq (s : Json.Scalar .double) : ofScalar? s = some (match s with
    | .null => absent
    | .boolean b => boolean b
    | .integer n => ofInt n
    | .float x => float x.convert
    | .text s => text s) := by
  cases s with
  | null | boolean | float | text => rfl
  | integer n =>
    cases h : int32? n with
    | some m => simp [ofScalar?, ofInt, Json.Scalar.isNull, Json.Scalar.int32?, h]
    | none => simp [ofScalar?, ofInt, Json.Scalar.isNull, Json.Scalar.int32?, Json.Scalar.single?, h]

def jsonChars (v : Value) : List Char := v.toScalar.chars

def toJson (v : Value) : String := String.ofList v.jsonChars

def ofJsonChars? (cs : List Char) : Option Value := (Json.Scalar.ofChars? cs).bind ofScalar?

/-- The value of a JSON scalar between blanks. -/
def ofJson? (s : String) : Option Value := ofJsonChars? s.toList

end Value
end Criteria
