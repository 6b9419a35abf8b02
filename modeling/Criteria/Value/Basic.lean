import Criteria.Decimal.Basic
import Criteria.Operator.Holds
import Criteria.Text.Lowercase

/-!
Values whose type is known only at run time, and the views of them as integer, float, truth value
and text.
-/

namespace Criteria
set_option autoImplicit false

inductive Kind where
  | absent
  | integer
  | float
  | boolean
  | text
  deriving DecidableEq, Repr

def Kind.name : Kind → String
  | absent => "none"
  | integer => "integer"
  | float => "float"
  | boolean => "boolean"
  | text => "string"

/-- An absent value meets no criterion, and as a reference nothing meets it. As the bound of a range
it counts as zero, like every value that spells no number. -/
inductive Value where
  | absent
  | integer (n : Int32)
  | float (x : Single)
  | boolean (b : Bool)
  | text (s : String)
  deriving DecidableEq

def int32? (n : Int) : Option Int32 :=
  if -2 ^ 31 ≤ n ∧ n < 2 ^ 31 then some (Int32.ofInt n) else none

@[simp] theorem int32?_toInt (n : Int32) : int32? n.toInt = some n := by
  rw [int32?, if_pos ⟨Int32.le_toInt n, Int32.toInt_lt n⟩, Int32.ofInt_toInt]

def Literal.int32? (l : Literal) : Option Int32 := l.integer?.bind Criteria.int32?

/-- The float nearest to a literal, if it is finite. -/
def Literal.single? (l : Literal) : Option Single :=
  let x := l.decimal.toBinary .single
  if x.isFinite then some x else none

namespace Value

def kind : Value → Kind
  | absent => .absent
  | integer _ => .integer
  | float _ => .float
  | boolean _ => .boolean
  | text _ => .text

def isPresent (v : Value) : Bool := v.kind != .absent

def isNumber (v : Value) : Bool := v.kind == .integer || v.kind == .float

def isInteger (v : Value) : Bool := v.kind == .integer

def isFloat (v : Value) : Bool := v.kind == .float

def isBoolean (v : Value) : Bool := v.kind == .boolean

def isText (v : Value) : Bool := v.kind == .text

/-- An integer of any size: a 32-bit integer if there is room, else the nearest float. -/
def ofInt (n : Int) : Value :=
  match int32? n with
  | some m => integer m
  | none => float (.ofInt n)

/-- What may be missing is absent if it is. -/
def ofOption {α : Type} (ofSome : α → Value) (a : Option α) : Value := a.elim absent ofSome

@[simp] theorem ofInt_toInt (n : Int32) : ofInt n.toInt = integer n := by simp [ofInt]

def boolChars : Bool → List Char
  | true => ['t', 'r', 'u', 'e']
  | false => ['f', 'a', 'l', 's', 'e']

/-- The value that a text without outer blanks spells: an integer, else a finite float, else a
truth value in any case, else the text itself. -/
def infer (cs : List Char) : Value :=
  match Literal.scan? cs with
  | some l =>
    match l.int32?, l.single? with
    | some n, _ => integer n
    | none, some x => float x
    | none, none => text (String.ofList cs)
  | none =>
    if Text.sameAscii cs (boolChars true) then boolean true
    else if Text.sameAscii cs (boolChars false) then boolean false
    else text (String.ofList cs)

/-- The value that a text spells between blanks. -/
def ofChars (cs : List Char) : Value := infer (Text.trim cs)

def parse (s : String) : Value := ofChars s.toList

/-- The integer view: floats lose their fraction, and a text that spells no integer is zero. -/
def toInt32 : Value → Int32
  | integer n => n
  | boolean b => if b then 1 else 0
  | float x => x.toInt32
  | text s => ((Literal.scan? (Text.trim s.toList)).bind Literal.int32?).getD 0
  | absent => 0

/-- The float view: a text that spells no finite number is zero, and so are truth values. -/
def toSingle : Value → Single
  | float x => x
  | integer n => .ofInt n.toInt
  | text s => ((Literal.scan? (Text.trim s.toList)).bind Literal.single?).getD (.zero false)
  | boolean _ | absent => .zero false

/-- The truth view: a text is true unless it is blank, the digit zero or the word false. Digit and
word count only without blanks around them. -/
def toBool : Value → Bool
  | boolean b => b
  | integer n => n != 0
  | text s =>
    !(Text.trim s.toList).isEmpty && s.toList != ['0'] &&
      !Text.sameAscii s.toList (boolChars false)
  | float _ | absent => false

def toText? : Value → Option String
  | text s => some s
  | _ => none

/-- Same kind and same payload, floats within tolerance. An absent value agrees with nothing. -/
def agrees : Value → Value → Bool
  | integer a, integer b => a == b
  | float a, float b => a.isClose b
  | boolean a, boolean b => a == b
  | text a, text b => a == b
  | _, _ => false

def differs (v w : Value) : Bool := !v.agrees w

end Value
end Criteria
