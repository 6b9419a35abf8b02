import Criteria.Binary.Rounding
import Criteria.Decimal.Literal

/-!
Decimal fractions: a signed whole number of some power of ten, and the binary datum nearest to it.
-/

namespace Criteria
set_option autoImplicit false

structure Decimal where
  negative : Bool
  digits : Nat
  exponent : Int
  deriving DecidableEq, Repr

/-- Powers of two, hence of ten, with this exponent lie outside a format: above the greatest
magnitude, and their inverses below half the least. -/
def Format.reach (f : Format) : Nat := 2 ^ f.exponentBits + f.fractionBits

namespace Decimal

/-- The nearest datum, rounded once. An exponent so large that the result is certain is not
expanded. -/
def toBinary (f : Format) (d : Decimal) : Binary f :=
  if d.digits = 0 then .zero d.negative
  else match d.exponent with
    | .ofNat e =>
      if f.reach ≤ e then .infinite d.negative
      else .ofUnits d.negative (d.digits * 10 ^ e * f.one) 1
    | .negSucc k =>
      if d.digits.log2 + f.reach ≤ k then .zero d.negative
      else .ofUnits d.negative (d.digits * f.one) (10 ^ (k + 1))

end Decimal

/-- The exact value of a literal. -/
def Literal.decimal (l : Literal) : Decimal :=
  let fraction := l.fraction.getD []
  { negative := l.isNegative
    digits := Nat.ofDigitChars 10 (l.whole ++ fraction) 0
    exponent := (l.exponent.elim 0 Exponent.value) - fraction.length }

end Criteria
