import Criteria.Criterion.Basic
import Criteria.Value.Text

/-!
The language of criteria. An expression is a range around one letter x, an operator in front of a
value, an exclamation mark in front of a value, or a bare value. Every text is an expression.
-/

namespace Criteria
set_option autoImplicit false

namespace Criterion

/-- The letter that stands for the input of a range. -/
def isSlot (c : Char) : Bool := c == 'x' || c == 'X'

/-- The two sides of the only slot of a text. -/
def splitSlot? (cs : List Char) : Option (List Char × List Char) :=
  match cs.dropWhile (!isSlot ·) with
  | [] => none
  | _ :: right =>
    if right.any isSlot then none else some (cs.takeWhile (!isSlot ·), right)

/-- The bound of an operator and a number text, if it is one. -/
def numericBound? (op : Operator) (cs : List Char) : Option Bound :=
  let value := Value.ofChars cs
  if value.isNumber then some ⟨op, value⟩ else none

/-- The left side of a range: a number and an operator, which is stored from the input's side. -/
def lowerBound? (cs : List Char) : Option Bound :=
  let cs := Text.trim cs
  let (op, number) := (Operator.trailing? cs).getD (.equal, cs)
  numericBound? op.converse number

/-- The right side of a range: an operator and a number. -/
def upperBound? (cs : List Char) : Option Bound :=
  let cs := Text.trim cs
  let (op, number) := (Operator.leading? cs).getD (.equal, cs)
  numericBound? op number

def range? (cs : List Char) : Option Criterion := do
  let (left, right) ← splitSlot? cs
  return range (← lowerBound? left) (← upperBound? right)

/-- An expression that is not a range. An exclamation mark by itself is a bare value. -/
def ofSingle (cs : List Char) : Criterion :=
  match Operator.leading? cs with
  | some (op, rest) => single op (.ofChars rest)
  | none =>
    match cs with
    | '!' :: c :: rest => single .notEqual (.ofChars (c :: rest))
    | _ => single .equal (.ofChars cs)

def ofChars (text : List Char) : Criterion :=
  let cs := Text.trim text
  if cs.isEmpty then blank else (range? cs).getD (ofSingle cs)

def parse (s : String) : Criterion := ofChars s.toList

/-- An expression whose values are written by `render`. -/
def charsBy (render : Value → List Char) : Criterion → List Char
  | single op reference => op.symbol ++ render reference
  | range lower upper =>
    render lower.value ++ lower.op.converse.symbol ++ 'x' :: upper.op.symbol ++ render upper.value

def shown (c : Criterion) : List Char := c.charsBy Value.shown

def exact (c : Criterion) : List Char := c.charsBy Value.exact

def display (c : Criterion) : String := String.ofList c.shown

instance : ToString Criterion := ⟨display⟩

def expression (c : Criterion) : String := String.ofList c.exact

end Criterion
end Criteria
