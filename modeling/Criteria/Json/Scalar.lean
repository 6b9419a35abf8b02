import Criteria.Decimal.Layout
import Criteria.Text.Quoted

/-!
The scalars of JSON and their texts. Numbers are written with a point or an exponent if and only if
they are floats, and a float that is no finite number is written as null. An integer is read as it
is as long as it has 64 bits, and every other number as a double.
-/

namespace Criteria
set_option autoImplicit false

/-- JSON floats are positional from a millionth up to thirteen digits, and a positive exponent has
a plus. -/
def Layout.json : Layout := ⟨-6, 12, true, .toEven⟩

namespace Json

/-- The blanks of JSON are fewer than those of a text. -/
def isSpace (c : Char) : Bool := c == ' ' || c == '\t' || c == '\n' || c == '\r'

def unspaced (cs : List Char) : List Char :=
  ((cs.dropWhile isSpace).reverse.dropWhile isSpace).reverse

theorem unspaced_encode (cs : List Char) :
    unspaced (Text.Quoted.encode cs) = Text.Quoted.encode cs := by
  simp [unspaced, Text.Quoted.encode, isSpace]

def nullChars : List Char := ['n', 'u', 'l', 'l']

def boolChars : Bool → List Char
  | true => ['t', 'r', 'u', 'e']
  | false => ['f', 'a', 'l', 's', 'e']

/-- The literals that are JSON numbers: no plus in front, digits on both sides of a point, and no
zero in front of other digits. -/
def isNumber (l : Literal) : Bool :=
  l.sign != some .plus && !l.whole.isEmpty && l.fraction != some [] &&
    (l.whole.head? != some '0' || l.whole.length == 1)

/-- The integers of a JSON number that are taken as they are: those of 64 bits, signed or unsigned.
A negative zero is not among them. -/
def integer? (l : Literal) : Option Int :=
  l.integer?.bind fun n =>
    if -2 ^ 63 ≤ n ∧ n < 2 ^ 64 ∧ (n = 0 → l.sign = none) then some n else none

/-- A scalar, its floats of one format: singles are written, and doubles are read. -/
inductive Scalar (f : Format) where
  | null
  | boolean (b : Bool)
  | integer (n : Int)
  | float (x : Binary f)
  | text (s : String)
  deriving DecidableEq

namespace Scalar

def chars {f : Format} : Scalar f → List Char
  | null => nullChars
  | boolean b => boolChars b
  | integer n => (Literal.ofInt n).chars
  | float (.finite s r) => (Layout.json.literal f s r).chars
  | float _ => nullChars
  | text s => Text.Quoted.encode s.toList

/-- The scalar of a JSON number. One that is too large for a double is refused. -/
def ofLiteral? (l : Literal) : Option (Scalar .double) :=
  if isNumber l then
    match integer? l with
    | some n => some (integer n)
    | none =>
      let x := l.decimal.toBinary .double
      if x.isFinite then some (float x) else none
  else none

/-- The scalar of a text between blanks; arrays and objects are refused. -/
def ofChars? (cs : List Char) : Option (Scalar .double) :=
  let cs := unspaced cs
  if cs = nullChars then some null
  else if cs = boolChars true then some (boolean true)
  else if cs = boolChars false then some (boolean false)
  else match Text.Quoted.decode? cs with
    | some s => some (text (String.ofList s))
    | none => (Literal.scan? cs).bind ofLiteral?

end Scalar
end Json
end Criteria
