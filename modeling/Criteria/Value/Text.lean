import Criteria.Decimal.Layout
import Criteria.Decimal.Thousandth
import Criteria.Value.Basic

/-!
The texts of a value: a rounded one for reading and an exact one that spells the same value again.
-/

namespace Criteria
set_option autoImplicit false

/-- Exact floats are positional from a ten-thousandth up to sixteen digits. -/
def Layout.expression : Layout := ⟨-4, 15, false, .up⟩

namespace Binary
variable {f : Format}

def signChars (negative : Bool) : List Char := if negative then ['-'] else []

/-- The nearest thousandth in decimal. -/
def shown : Binary f → List Char
  | .nan => ['N', 'a', 'N']
  | .infinite s => signChars s ++ ['i', 'n', 'f']
  | .finite s r => (Thousandth.literal s (Thousandth.nearest f r)).chars

/-- The shortest digits that identify the datum. -/
def exact : Binary f → List Char
  | .nan => ['N', 'a', 'N']
  | .infinite s => signChars s ++ ['i', 'n', 'f']
  | .finite s r => (Layout.expression.literal f s r).chars

end Binary

namespace Value

/-- The text in which a value is shown. -/
def shown : Value → List Char
  | absent => ['(', 'n', 'o', 'n', 'e', ')']
  | integer n => (Literal.ofInt n.toInt).chars
  | float x => x.shown
  | boolean b => boolChars b
  | text s => s.toList

/-- The text in which a value is stored: floats keep their precision and their point. -/
def exact : Value → List Char
  | float x => x.exact
  | v => v.shown

def display (v : Value) : String := String.ofList v.shown

instance : ToString Value := ⟨display⟩

/-- The text of anything that can be shown, as it stands. -/
def ofDisplay {α : Type} [ToString α] (a : α) : Value := text (toString a)

end Value
end Criteria
