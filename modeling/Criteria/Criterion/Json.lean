import Criteria.Criterion.Expression
import Criteria.Value.Json

/-!
Criteria as JSON texts: a criterion is stored as its expression in a JSON string.
-/

namespace Criteria.Criterion
set_option autoImplicit false

def toScalar (c : Criterion) : Json.Scalar .single := .text c.expression

/-- Only a text is taken as a criterion. -/
def ofScalar? (s : Json.Scalar .double) : Option Criterion := s.text?.map parse

def jsonChars (c : Criterion) : List Char := c.toScalar.chars

def toJson (c : Criterion) : String := String.ofList c.jsonChars

def ofJsonChars? (cs : List Char) : Option Criterion := (Json.Scalar.ofChars? cs).bind ofScalar?

/-- The criterion of a JSON string between blanks; other JSON is refused. -/
def ofJson? (s : String) : Option Criterion := ofJsonChars? s.toList

end Criteria.Criterion
