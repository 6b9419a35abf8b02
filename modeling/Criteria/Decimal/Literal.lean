/-!
Number texts: an optional sign, digits, an optional point with digits, an optional exponent. A
literal keeps every character of its text, so reading and writing are inverse to each other.
-/

namespace Criteria
set_option autoImplicit false

inductive Sign where
  | plus
  | minus
  deriving DecidableEq, Repr

namespace Sign

def char : Sign → Char
  | plus => '+'
  | minus => '-'

def chars : Option Sign → List Char
  | none => []
  | some s => [s.char]

/-- A sign in front of a text, and what follows it. -/
def split : List Char → Option Sign × List Char
  | '+' :: r => (some plus, r)
  | '-' :: r => (some minus, r)
  | r => (none, r)

end Sign

/-- The power of ten of a literal, with the letter that marks it. -/
structure Exponent where
  mark : Char
  sign : Option Sign
  digits : List Char
  deriving DecidableEq, Repr

structure Literal where
  sign : Option Sign
  whole : List Char
  fraction : Option (List Char)
  exponent : Option Exponent
  deriving DecidableEq, Repr

namespace Exponent

def isMark (c : Char) : Bool := c == 'e' || c == 'E'

/-- An exponent that takes up the whole text. -/
def scan? : List Char → Option Exponent
  | [] => none
  | mark :: r =>
    let (sign, digits) := Sign.split r
    if isMark mark && !digits.isEmpty && digits.all Char.isDigit then some ⟨mark, sign, digits⟩
    else none

def chars (e : Exponent) : List Char := e.mark :: Sign.chars e.sign ++ e.digits

def value (e : Exponent) : Int :=
  let n : Int := Nat.ofDigitChars 10 e.digits 0
  if e.sign = some .minus then -n else n

end Exponent

namespace Literal

/-- A point in front of a text with the digits behind it, and what follows them. -/
def splitFraction : List Char → Option (List Char) × List Char
  | '.' :: r => (some (r.takeWhile Char.isDigit), r.dropWhile Char.isDigit)
  | r => (none, r)

/-- A literal that takes up the whole text. At least one digit stands on one side of the point. -/
def scan? (cs : List Char) : Option Literal :=
  let (sign, body) := Sign.split cs
  let whole := body.takeWhile Char.isDigit
  let (fraction, tail) := splitFraction (body.dropWhile Char.isDigit)
  if whole.isEmpty && (fraction.getD []).isEmpty then none
  else if tail.isEmpty then some ⟨sign, whole, fraction, none⟩
  else (Exponent.scan? tail).map fun e => ⟨sign, whole, fraction, some e⟩

def fractionChars : Option (List Char) → List Char
  | none => []
  | some digits => '.' :: digits

def exponentChars : Option Exponent → List Char
  | none => []
  | some e => e.chars

def chars (l : Literal) : List Char :=
  Sign.chars l.sign ++ l.whole ++ fractionChars l.fraction ++ exponentChars l.exponent

def isNegative (l : Literal) : Bool := l.sign == some .minus

/-- The value of a literal without point and exponent. -/
def integer? (l : Literal) : Option Int :=
  if l.fraction.isNone && l.exponent.isNone then
    let n : Int := Nat.ofDigitChars 10 l.whole 0
    some (if l.isNegative then -n else n)
  else none

def ofInt (n : Int) : Literal :=
  ⟨if n < 0 then some .minus else none, Nat.toDigits 10 n.natAbs, none, none⟩

end Literal
end Criteria
