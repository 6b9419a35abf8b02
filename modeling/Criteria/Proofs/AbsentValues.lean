import Criteria.Criterion.Accepts
import Criteria.Proofs.Grammar

/-!
# Where an absent value takes part

An absent input meets no criterion, and nothing meets an absent reference. The bound of a range is
different: if it is absent it counts as zero, so such a range can be met. No text is read as one.
-/

namespace Criteria
set_option autoImplicit false

namespace Value

/-- Zero in place of an absent value. -/
def orZero : Value → Value
  | absent => float (.zero false)
  | v => v

@[simp] theorem absent_ne_orZero (v : Value) : absent ≠ v.orZero := by
  cases v <;> simp [orZero]

@[simp] theorem toSingle_orZero (v : Value) : v.orZero.toSingle = v.toSingle := by
  cases v <;> rfl

theorem absent_satisfies (op : Operator) (w : Value) : absent.satisfies op w = false := rfl

theorem satisfies_absent (v : Value) (op : Operator) : v.satisfies op absent = false := by
  cases v <;> rfl

end Value

def Bound.orZero (b : Bound) : Bound := ⟨b.op, b.value.orZero⟩

@[simp] theorem Bound.admits_orZero (b : Bound) (x : Single) : b.orZero.admits x = b.admits x := by
  rw [orZero, admits, admits, Value.toSingle_orZero]

namespace Criterion

/-- The criterion with zero in place of its absent values. -/
def zeroed : Criterion → Criterion
  | single op reference => single op reference.orZero
  | range lower upper => range lower.orZero upper.orZero

theorem absent_not_mem_operands_zeroed (c : Criterion) : .absent ∉ c.zeroed.operands := by
  cases c <;> simp [zeroed, operands, Bound.orZero]

theorem accepts_absent (c : Criterion) : c.accepts .absent = false := by
  cases c with
  | single op r => exact Value.absent_satisfies op r
  | range l u => rfl

/-- To a range an absent bound is zero. -/
theorem accepts_zeroed_of_isRange {c : Criterion} (h : c.isRange = true) (v : Value) :
    c.zeroed.accepts v = c.accepts v := by
  cases c with
  | single => simp [isRange] at h
  | range l u => simp only [zeroed, accepts, Bound.admits_orZero]

theorem isRange_eq_false_of_absent {e : String} (h : .absent ∈ (parse e).operands) :
    (parse e).isRange = false := by
  have hblank := Text.trim_eq_nil_iff.mpr (absent_mem_operands_iff.mp h)
  rw [parse, (Means.blank hblank).ofChars_eq]
  rfl

/-- Where the input, the reference or a bound is absent, the criterion is met exactly if it is a
range, the input is not the absent value, and the range is met that has zeros for its absent bounds.
A text is never read as such a range. -/
theorem accepts_of_absent_iff (c : Criterion) (v : Value)
    (h : v = .absent ∨ .absent ∈ c.operands) :
    (c.accepts v = true ↔ c.isRange = true ∧ v ≠ .absent ∧ c.zeroed.accepts v = true) ∧
    .absent ∉ c.zeroed.operands ∧ ∀ e, c = parse e → c.accepts v = false := by
  have hiff : c.accepts v = true ↔ c.isRange = true ∧ v ≠ .absent ∧ c.zeroed.accepts v = true := by
    cases hr : c.isRange with
    | true =>
      rw [accepts_zeroed_of_isRange hr]
      refine ⟨fun ha => ⟨rfl, ?_, ha⟩, fun ha => ha.2.2⟩
      rintro rfl
      simp [accepts_absent] at ha
    | false =>
      cases c with
      | range => simp [isRange] at hr
      | single op r =>
        have hr : v = .absent ∨ r = .absent := by simpa [operands, eq_comm] using h
        rcases hr with rfl | rfl
        · simp [accepts_absent]
        · simp [accepts, Value.satisfies_absent]
  refine ⟨hiff, absent_not_mem_operands_zeroed c, ?_⟩
  rintro e rfl
  rw [Bool.eq_false_iff]
  intro ha
  rcases h with rfl | h
  · simp [accepts_absent] at ha
  · have hr := (hiff.mp ha).1
    simp [isRange_eq_false_of_absent h] at hr

/-- The range of the numbers from an absent bound to 5 accepts 3. -/
theorem absent_bound_accepts :
    Value.absent ∈ (range ⟨.greaterEqual, .absent⟩ ⟨.lessEqual, .integer 5⟩).operands ∧
    (range ⟨.greaterEqual, .absent⟩ ⟨.lessEqual, .integer 5⟩).accepts (.integer 3) = true := by
  decide

theorem absent_bound_is_zero :
    ((Value.integer 3 = .absent ∨
        .absent ∈ (range ⟨.greaterEqual, .absent⟩ ⟨.lessEqual, .integer 5⟩).operands)) ∧
    ((range ⟨.greaterEqual, .absent⟩ ⟨.lessEqual, .integer 5⟩).accepts (.integer 3) = true ↔
      (range ⟨.greaterEqual, .absent⟩ ⟨.lessEqual, .integer 5⟩).isRange = true ∧
        Value.integer 3 ≠ .absent ∧
        (range ⟨.greaterEqual, .float (.zero false)⟩ ⟨.lessEqual, .integer 5⟩).accepts
          (.integer 3) = true) := by
  have h : Value.integer 3 = .absent ∨
      .absent ∈ (range ⟨.greaterEqual, .absent⟩ ⟨.lessEqual, .integer 5⟩).operands := by decide
  exact ⟨h, (accepts_of_absent_iff _ _ h).1⟩

end Criterion
end Criteria
