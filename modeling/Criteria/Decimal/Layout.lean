import Criteria.Decimal.Shortest

/-!
Layouts of a binary magnitude in shortest digits: positional within a range of exponents and with
an exponent of its own outside.
-/

namespace Criteria
set_option autoImplicit false

/-- Magnitudes whose first digit stands for ten to a power from `least` to `greatest` are written
positionally. `signed` puts a plus in front of a positive exponent. -/
structure Layout where
  least : Int
  greatest : Int
  signed : Bool
  tie : Tie
  deriving DecidableEq, Repr

namespace Layout

def zeros (n : Nat) : List Char := List.replicate n '0'

def significant (digits : List Char) : List Char :=
  (digits.reverse.dropWhile (· == '0')).reverse

/-- Digits around a point, the first of them standing for ten to the `place`. At least one digit
stands on each side. -/
def positional (sign : Option Sign) (digits : List Char) (place : Int) : Literal :=
  match place with
  | .ofNat n =>
    let behind := digits.drop (n + 1)
    ⟨sign, digits.take (n + 1) ++ zeros (n + 1 - digits.length),
      some (if behind.isEmpty then ['0'] else behind), none⟩
  | .negSucc k => ⟨sign, ['0'], some (zeros k ++ digits), none⟩

/-- One digit in front of the point, if there is a point, and the place as an exponent. -/
def scientific (signed : Bool) (sign : Option Sign) (digits : List Char) (place : Int) : Literal :=
  let behind := digits.drop 1
  ⟨sign, digits.take 1, if behind.isEmpty then none else some behind,
    some ⟨'e', if place < 0 then some .minus else if signed then some .plus else none,
      Nat.toDigits 10 place.natAbs⟩⟩

def literal (l : Layout) (f : Format) (negative : Bool) (rank : Nat) : Literal :=
  let sign := if negative then some Sign.minus else none
  if rank = 0 then ⟨sign, ['0'], some ['0'], none⟩
  else
    let d := Shortest.decimal f l.tie rank
    let digits := Nat.toDigits 10 d.digits
    let place := d.exponent + digits.length - 1
    if l.least ≤ place ∧ place ≤ l.greatest then positional sign (significant digits) place
    else scientific l.signed sign (significant digits) place

end Layout
end Criteria
