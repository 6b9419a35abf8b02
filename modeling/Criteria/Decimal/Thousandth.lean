import Criteria.Binary.Rounding
import Criteria.Decimal.Literal

/-!
Magnitudes written to the nearest thousandth, a tie going to the even one, without needless zeros.
-/

namespace Criteria.Thousandth
set_option autoImplicit false

def nearest (f : Format) (rank : Nat) : Nat := divEven (f.units rank * 1000) f.one

/-- The three digits behind the point, without the zeros at their end. -/
def fraction (n : Nat) : List Char :=
  let digits := [n / 100 % 10, n / 10 % 10, n % 10]
  ((digits.reverse.dropWhile (· == 0)).reverse).map Nat.digitChar

/-- A number of thousandths. Zero has no sign. -/
def literal (negative : Bool) (n : Nat) : Literal :=
  let behind := fraction n
  ⟨if negative && n != 0 then some .minus else none, Nat.toDigits 10 (n / 1000),
    if behind.isEmpty then none else some behind, none⟩

end Criteria.Thousandth
