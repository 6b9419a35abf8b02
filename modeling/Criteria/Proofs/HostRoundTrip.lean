import Criteria.Proofs.Conversions
import Criteria.Proofs.IntegerRoutes
import Criteria.Proofs.MemoTransparency

/-!
# Values through the host and back

An object that stands for a value is converted to that value again. So the host's answer for a value
that it got from a text is the answer for the text's own value, whatever the memo holds.
-/

namespace Criteria.Host
set_option autoImplicit false

/-- Every value comes back as it was, a float with its sign and its rank. -/
theorem toValue_ofValue (v : Value) : (ofValue v).toValue = .ok v := by
  cases v with
  | absent => exact Object.toValue_none
  | boolean b => exact Object.toValue_bool b
  | text s => exact Object.toValue_str s
  | integer n =>
    have hlo := Int32.le_toInt n
    have hhi := Int32.toInt_lt n
    rw [ofValue, Object.toValue_int (by omega), Value.ofInt_toInt]
  | float x => rw [ofValue, Object.toValue_float, Binary.convert_convert]

/-- A check of an object that stands for a value is the memo's own call with the value. -/
theorem check_ofValue (m : Memo) (text : String) (v : Value) :
    check m text (ofValue v) = (.ok (m.accepts text v).1, (m.accepts text v).2) := by
  rw [check, toValue_ofValue]

/-- Values cross to the host and back unchanged. After any run of calls, a check of the object that
the host got for a text answers as the parsed criterion does for the parsed text, and is one more
call of the run. -/
theorem values_cross_unchanged :
    (∀ v : Value, (ofValue v).toValue = .ok v) ∧
    ∀ (calls : List Memo.Call) (text t : String),
      check (.run .empty calls) text (ofValue (.parse t)) =
        (.ok ((Criterion.parse text).accepts (.parse t)),
          .run .empty (calls ++ [.accepts text (.parse t)])) := by
  refine ⟨toValue_ofValue, ?_⟩
  intro calls text t
  have hsound : (Memo.run .empty calls).Sound := Memo.empty_sound.run calls
  have hanswer : ((Memo.run .empty calls).accepts text (.parse t)).1 =
      (Criterion.parse text).accepts (.parse t) := by
    rw [hsound.accepts_eq]
  rw [check_ofValue, hanswer, Memo.run_append]
  rfl

end Criteria.Host
