import Criteria.Proofs.HostObjects
import Criteria.Proofs.IntegerRules
import Criteria.Proofs.JsonCodec
import Criteria.Value.Json

/-!
# How an integer becomes a value

An integer comes in as a text, as a number, as JSON or from the host. Each route ends in the same
value: the integer itself if 32 bits hold it, else the float nearest to it, rounded once.
-/

namespace Criteria
set_option autoImplicit false

/-- Of any codec, the digits of an integer are read as the value of the integer. -/
theorem Json.IsCodec.value_of_digits {write : Scalar .single → List Char}
    {read : List Char → Option (Scalar .double)} (codec : IsCodec write read) {n : Int}
    (low : -2 ^ 63 ≤ n) (high : n < 2 ^ 64) :
    (read (Literal.ofInt n).chars).bind Value.ofScalar? = some (.ofInt n) := by
  rw [codec.integer n low high, Option.bind_some, Value.ofScalar?_eq]

namespace Value

/-- The value that an integer ought to have: itself if 32 bits hold it, else the nearest float. -/
def StandsFor (v : Value) (n : Int) : Prop :=
  match v with
  | integer m => m.toInt = n
  | float x => ¬ (-2 ^ 31 ≤ n ∧ n < 2 ^ 31) ∧ x.IsNearest n
  | _ => False

theorem standsFor_ofInt {n : Int} (h : n.natAbs ≤ 2 ^ 64) : (ofInt n).StandsFor n := by
  unfold ofInt
  split
  · next m hm => exact toInt_of_int32? hm
  · next hm =>
    have hout := exists_of_int32?_none hm
    exact ⟨by omega, Binary.isNearest_ofInt (by decide) (Format.single_rankOf_lt_top h)⟩

theorem parse_toString {n : Int} (h : n.natAbs ≤ 2 ^ 64) : parse (toString n) = ofInt n := by
  rw [parse, Literal.toList_toString, ofChars_ofInt (Format.single_rankOf_lt_top h)]

theorem ofJson?_toString {n : Int} (low : -2 ^ 63 ≤ n) (high : n < 2 ^ 64) :
    ofJson? (toString n) = some (ofInt n) := by
  rw [ofJson?, Literal.toList_toString]
  exact Json.isCodec.value_of_digits low high

end Value

/-- An integer of 64 bits becomes one and the same value as a text, as a number, as JSON and from
the host, also without a sign as a text and as JSON, and that value is the one it ought to have. -/
theorem Value.integer_routes_agree :
    (∀ n : Int64, ∃ v : Value, v.StandsFor n.toInt ∧
      parse (toString n) = v ∧ ofInt n.toInt = v ∧ ofJson? (toString n) = some v ∧
      Host.Object.toValue (.int n.toInt) = .ok v) ∧
    ∀ n : UInt64, ∃ v : Value, v.StandsFor n.toNat ∧
      parse (toString n) = v ∧ ofJson? (toString n) = some v := by
  constructor
  · intro n
    have hlo := Int64.le_toInt n
    have hhi := Int64.toInt_lt n
    exact ⟨ofInt n.toInt, standsFor_ofInt (by omega), parse_toString (by omega), rfl,
      ofJson?_toString hlo (by omega), Host.Object.toValue_int ⟨hlo, hhi⟩⟩
  · intro n
    have htext : toString n = toString (n.toNat : Int) := rfl
    have hlo : 0 ≤ (n.toNat : Int) := Int.natCast_nonneg _
    have hhi : (n.toNat : Int) < 2 ^ 64 := by exact_mod_cast UInt64.toNat_lt n
    rw [htext]
    generalize (n.toNat : Int) = m at hlo hhi ⊢
    exact ⟨ofInt m, standsFor_ofInt (by omega), parse_toString (by omega),
      ofJson?_toString (by omega) hhi⟩

/-- A tie between two floats goes to the even one on every route. -/
example : Value.parse "2147483776" = .float (.ofInt 2147483648) ∧
    Value.ofJson? "2147483776" = some (.float (.ofInt 2147483648)) := by decide

end Criteria
