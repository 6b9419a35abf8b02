import Mathlib.Data.List.Forall2
import Criteria.Proofs.Lossless
import Criteria.Proofs.SingleLaws

/-!
# How far agreement is an equality

Criteria agree if their operators are the same and their operands agree one by one, so every law of
criteria is one of values. Agreement is symmetric, and reflexive but for absent values and floats
that are no finite numbers. No text spells such a value, and only a blank one stands for it.
-/

namespace Criteria
set_option autoImplicit false

namespace Value

/-- Neither absent nor a float that is no finite number. -/
structure IsProper (v : Value) : Prop where
  present : v ≠ absent
  finite : ∀ x, v = float x → x.isFinite = true

theorem agrees_comm (v w : Value) : v.agrees w = w.agrees v := by
  cases v <;> cases w <;> try rfl
  case integer.integer a b => exact BEq.comm
  case float.float x y => exact Binary.isClose_comm x y
  case boolean.boolean a b => exact BEq.comm
  case text.text s t => exact BEq.comm

theorem kind_eq_of_agrees {v w : Value} (h : v.agrees w = true) : v.kind = w.kind := by
  cases v <;> cases w <;> first | rfl | exact absurd h Bool.false_ne_true

theorem agrees_self_iff {v : Value} : v.agrees v = true ↔ v.IsProper := by
  constructor
  · intro h
    refine ⟨?_, ?_⟩
    · rintro rfl
      exact absurd h Bool.false_ne_true
    · rintro x rfl
      exact (Binary.isFinite_of_isClose h).1
  · intro h
    cases v with
    | absent => exact absurd rfl h.present
    | float x => exact Binary.isClose_self (h.finite x rfl)
    | integer n => exact BEq.rfl
    | boolean b => exact BEq.rfl
    | text s => exact BEq.rfl

end Value

namespace Criterion

def operators : Criterion → List Operator
  | single op _ => [op]
  | range lower upper => [lower.op, upper.op]

/-- The form of a criterion shows in the number of its operators. -/
theorem isRange_eq_of_operators_eq {c d : Criterion} (h : c.operators = d.operators) :
    c.isRange = d.isRange := by
  have hlen := congrArg List.length h
  cases c <;> cases d <;> first | rfl | cases hlen

theorem agrees_iff {c d : Criterion} : c.agrees d = true ↔
    c.operators = d.operators ∧ List.Forall₂ (fun v w => v.agrees w = true) c.operands d.operands := by
  cases c with
  | single o v =>
    cases d with
    | single p w => simp [agrees, operators, operands]
    | range => simp [agrees, operators]
  | range l u =>
    cases d with
    | single => simp [agrees, operators]
    | range m w => simp [agrees, Bound.agrees, operators, operands, and_assoc, and_left_comm]

theorem agrees_symm {c d : Criterion} (h : c.agrees d = true) : d.agrees c = true := by
  obtain ⟨hop, hvalues⟩ := agrees_iff.mp h
  refine agrees_iff.mpr ⟨hop.symm, hvalues.flip.imp ?_⟩
  intro v w hvw
  rwa [Value.agrees_comm]

theorem agrees_comm (c d : Criterion) : c.agrees d = d.agrees c :=
  Bool.eq_iff_iff.mpr ⟨agrees_symm, agrees_symm⟩

theorem agrees_self_iff {c : Criterion} : c.agrees c = true ↔ ∀ v ∈ c.operands, v.IsProper := by
  rw [agrees_iff, List.forall₂_same]
  simp only [true_and, Value.agrees_self_iff]

/-- A blank text is read as a criterion about an absent value. -/
theorem not_blank_of_agrees_self {cs : List Char} (h : (ofChars cs).agrees (ofChars cs) = true) :
    ¬ ∀ c ∈ cs, Text.isBlank c = true := by
  intro hblank
  have habsent := absent_mem_operands_iff.mpr hblank
  exact (agrees_self_iff.mp h .absent habsent).present rfl

/-- Agreement is symmetric and has its negation in difference, on values as on criteria. It does not
cross kinds, forms or operators. Just the values that are proper agree with themselves, and the
criteria whose operands are; what a text spells does unless the text is blank. -/
theorem agreement_laws :
    (∀ v w : Value, v.agrees w = w.agrees v ∧ v.differs w = !v.agrees w ∧
      (v.kind ≠ w.kind → v.agrees w = false)) ∧
    (∀ c d : Criterion, c.agrees d = d.agrees c ∧ c.differs d = !c.agrees d ∧
      (c.isRange ≠ d.isRange ∨ c.operators ≠ d.operators → c.agrees d = false)) ∧
    (∀ v : Value, v.agrees v = true ↔ v.IsProper) ∧
    (∀ c : Criterion, c.agrees c = true ↔ ∀ v ∈ c.operands, v.IsProper) ∧
    ∀ e : String, (parse e).agrees (parse e) = true ↔ ¬ ∀ c ∈ e.toList, Text.isBlank c = true := by
  refine ⟨?_, ?_, fun v => Value.agrees_self_iff, fun c => agrees_self_iff, ?_⟩
  · intro v w
    refine ⟨Value.agrees_comm v w, rfl, ?_⟩
    intro hkind
    rw [Bool.eq_false_iff]
    intro h
    exact hkind (Value.kind_eq_of_agrees h)
  · intro c d
    refine ⟨agrees_comm c d, rfl, ?_⟩
    intro hother
    rw [Bool.eq_false_iff]
    intro h
    have hop := (agrees_iff.mp h).1
    rcases hother with hform | hoperators
    · exact hform (isRange_eq_of_operators_eq hop)
    · exact hoperators hop
  · intro e
    constructor
    · exact not_blank_of_agrees_self
    · intro h
      apply agrees_self_ofChars
      rwa [ne_eq, Text.trim_eq_nil_iff]

/-- The integer one and the float one do not agree, nor do criteria about the same value that differ
in form or in one operator. -/
theorem agreement_of_ones :
    (Value.kind (.integer 1) ≠ Value.kind (.float (.ofInt 1)) ∧
      (Value.integer 1).agrees (.float (.ofInt 1)) = false) ∧
    ((single .equal (.integer 1)).isRange ≠
        (range ⟨.equal, .integer 1⟩ ⟨.equal, .integer 1⟩).isRange ∧
      (single .equal (.integer 1)).agrees (range ⟨.equal, .integer 1⟩ ⟨.equal, .integer 1⟩) = false) ∧
    ((range ⟨.equal, .integer 1⟩ ⟨.less, .integer 1⟩).operators ≠
        (range ⟨.equal, .integer 1⟩ ⟨.lessEqual, .integer 1⟩).operators ∧
      (range ⟨.equal, .integer 1⟩ ⟨.less, .integer 1⟩).agrees
        (range ⟨.equal, .integer 1⟩ ⟨.lessEqual, .integer 1⟩) = false) := by
  obtain ⟨hvalues, hcriteria, _⟩ := agreement_laws
  have hkind : Value.kind (.integer 1) ≠ Value.kind (.float (.ofInt 1)) := nofun
  have hform : (single .equal (.integer 1)).isRange ≠
      (range ⟨.equal, .integer 1⟩ ⟨.equal, .integer 1⟩).isRange := nofun
  have hoperators : (range ⟨.equal, .integer 1⟩ ⟨.less, .integer 1⟩).operators ≠
      (range ⟨.equal, .integer 1⟩ ⟨.lessEqual, .integer 1⟩).operators := nofun
  refine ⟨⟨hkind, ?_⟩, ⟨hform, ?_⟩, hoperators, ?_⟩
  · exact (hvalues _ _).2.2 hkind
  · exact (hcriteria _ _).2.2 (.inl hform)
  · exact (hcriteria _ _).2.2 (.inr hoperators)

end Criterion
end Criteria
