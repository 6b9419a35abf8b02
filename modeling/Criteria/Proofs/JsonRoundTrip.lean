import Criteria.Binary.Bits
import Criteria.Proofs.IntegerRoutes
import Criteria.Proofs.ShortestThroughDouble

/-!
# Values written as JSON and read again

The JSON text of a value tells its kind: only texts are quoted, and a number has a point or an
exponent exactly if it is a float. So everything but a float comes back as it was. A finite float
comes back as a float, through a double, and is the same except for one magnitude.
-/

namespace Criteria
set_option autoImplicit false

namespace Value

/-- A float that JSON has no number for. -/
def isNonFinite : Value → Bool
  | float x => !x.isFinite
  | _ => false

end Value

/-! Of any writer and reader that are a codec: -/

section
variable {write : Json.Scalar .single → List Char}
  {read : List Char → Option (Json.Scalar .double)}

/-- What a value is read as after it was written. -/
def Value.through (write : Json.Scalar .single → List Char)
    (read : List Char → Option (Json.Scalar .double)) (v : Value) : Option Value :=
  (read (write v.toScalar)).bind Value.ofScalar?

namespace Json.IsCodec
variable (codec : IsCodec write read)
include codec

theorem through_integer (n : Int32) : Value.through write read (.integer n) = some (.integer n) := by
  have hlow := Int32.le_toInt n
  have hhigh := Int32.toInt_lt n
  rw [Value.through, Value.toScalar, codec.digits, codec.value_of_digits (by omega) (by omega),
    Value.ofInt_toInt]

theorem through_boolean (b : Bool) : Value.through write read (.boolean b) = some (.boolean b) := by
  rw [Value.through, Value.toScalar, codec.boolean, Option.bind_some, Value.ofScalar?_eq]

theorem through_text (s : String) : Value.through write read (.text s) = some (.text s) := by
  rw [Value.through, Value.toScalar, codec.text, Option.bind_some, Value.ofScalar?_eq]

theorem through_absent : Value.through write read .absent = some .absent := by
  rw [Value.through, Value.toScalar, codec.null, Option.bind_some, Value.ofScalar?_eq]

theorem through_nonFinite {x : Single} (h : x.isFinite = false) :
    Value.through write read (.float x) = some .absent := by
  rw [Value.through, Value.toScalar, codec.nonFinite x h]
  exact codec.through_absent

/-- A finite float is read as its shortest decimal is through a double. -/
theorem through_finite (s : Bool) (r : Fin Format.single.top) :
    Value.through write read (.float (.finite s r)) =
      some (.float (.ofRank s (Shortest.reread r))) := by
  obtain ⟨l, hwrite, hl, hshortest⟩ := codec.shortest (.finite s r) rfl
  rw [← Binary.ofRank_val] at hshortest
  obtain ⟨hfinite, hconvert⟩ := hshortest.convert_toBinary r.isLt
  rw [Value.through, Value.toScalar, hwrite, codec.nearest l hl hfinite, Option.bind_some,
    Value.ofScalar?_eq, ← hconvert]

theorem keeps_kind (v : Value) : ∃ w, v.through write read = some w ∧
    if v.isNonFinite then w = .absent else w.kind = v.kind ∧ (v.kind ≠ .float → w = v) := by
  cases v with
  | absent => exact ⟨.absent, codec.through_absent, rfl, fun _ => rfl⟩
  | integer n => exact ⟨.integer n, codec.through_integer n, rfl, fun _ => rfl⟩
  | boolean b => exact ⟨.boolean b, codec.through_boolean b, rfl, fun _ => rfl⟩
  | text s => exact ⟨.text s, codec.through_text s, rfl, fun _ => rfl⟩
  | float x =>
    cases x with
    | nan => exact ⟨.absent, codec.through_nonFinite rfl, rfl⟩
    | infinite s => exact ⟨.absent, codec.through_nonFinite rfl, rfl⟩
    | finite s r => exact ⟨_, codec.through_finite s r, rfl, fun h => absurd rfl h⟩

theorem float_survives_iff (x : Single) : Value.through write read (.float x) = some (.float x) ↔
    x.isFinite = true ∧ x ≠ .ofBits 0x15AE43FD ∧ x ≠ .ofBits 0x95AE43FD := by
  have hplus : (.ofBits 0x15AE43FD : Single) = .ofRank false Shortest.slippingRank := by decide
  have hminus : (.ofBits 0x95AE43FD : Single) = .ofRank true Shortest.slippingRank := by decide
  have hslip : Shortest.slippingRank < Format.single.top := by decide
  rw [hplus, hminus]
  cases x with
  | nan =>
    rw [codec.through_nonFinite rfl]
    exact iff_of_false nofun nofun
  | infinite s =>
    rw [codec.through_nonFinite rfl]
    exact iff_of_false nofun nofun
  | finite s r =>
    have hread : Shortest.reread r = r ↔ r.val ≠ Shortest.slippingRank := by
      unfold Shortest.reread
      split <;> simp [*]
    have hback : (Binary.ofRank s (Shortest.reread r) : Single) = .finite s r ↔
        Shortest.reread r = r := by
      rw [← Binary.ofRank_val]
      exact ⟨Binary.ofRank_inj r.isLt, congrArg _⟩
    have hsame (t : Bool) : (Binary.finite s r : Single) = .ofRank t Shortest.slippingRank ↔
        s = t ∧ r.val = Shortest.slippingRank := by
      simp [Binary.ofRank, dif_pos hslip, Fin.ext_iff]
    rw [codec.through_finite, Option.some_inj, Value.float.injEq, hback, hread, ne_eq, ne_eq, ne_eq,
      hsame, hsame]
    cases s <;> simp [Binary.isFinite]

end Json.IsCodec
end

namespace Value

theorem ofJson?_toJson (v : Value) :
    ofJson? v.toJson = v.through Json.Scalar.chars Json.Scalar.ofChars? := by
  rw [ofJson?, toJson, String.toList_ofList]
  rfl

/-- Reading the JSON text of a value succeeds. It gives a value of the same kind, and the same value
if that is no float; a float that is no finite number becomes an absent value. -/
theorem json_keeps_kind (v : Value) : ∃ w, ofJson? v.toJson = some w ∧
    if v.isNonFinite then w = absent else w.kind = v.kind ∧ (v.kind ≠ .float → w = v) := by
  rw [ofJson?_toJson]
  exact Json.isCodec.keeps_kind v

/-- A float comes back from JSON as it was, unless it is no finite number or of the one magnitude
that goes to the next float. -/
theorem float_survives_json_iff (x : Single) : ofJson? (float x).toJson = some (float x) ↔
    x.isFinite = true ∧ x ≠ .ofBits 0x15AE43FD ∧ x ≠ .ofBits 0x95AE43FD := by
  rw [ofJson?_toJson]
  exact Json.isCodec.float_survives_iff x

/-- A float whose JSON text is read as the next float. -/
theorem float_slips_in_json : (.ofBits 0x15AE43FD : Single).isFinite = true ∧
    (float (.ofBits 0x15AE43FD)).toJson = "7.038531e-26" ∧
    ofJson? (float (.ofBits 0x15AE43FD)).toJson = some (float (.ofBits 0x15AE43FE)) ∧
    (.ofBits 0x15AE43FE : Single) ≠ .ofBits 0x15AE43FD := by
  refine ⟨by decide, by decide +kernel, ?_, by decide⟩
  rw [ofJson?_toJson]
  decide +kernel

end Value
end Criteria
