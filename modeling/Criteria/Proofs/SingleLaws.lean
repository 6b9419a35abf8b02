import Criteria.Criterion.Accepts
import Criteria.Proofs.WholeFloats

/-!
# Laws of single comparisons

Two values are compared as integers, as floats, by their letters or as truth values, or not at all.
On each path an operator and its opposite exclude each other, and exchanging the sides is the
converse operator.
-/

namespace Criteria
set_option autoImplicit false

namespace Binary
variable {f : Format} {x y : Binary f}

theorem distance_comm (x y : Binary f) : x.distance y = y.distance x := by
  cases x <;> cases y <;> try rfl
  · next s t => simp only [distance, eq_comm]
  · next s r t q =>
    rw [distance, distance, ← Int.natAbs_neg, Int.neg_sub]

theorem isClose_comm (x y : Single) : x.isClose y = y.isClose x := by
  rw [isClose, isClose, distance_comm]

theorem le_eq_not_lt (hx : x ≠ .nan) (hy : y ≠ .nan) : x.le y = !y.lt x := by
  obtain ⟨i, hi⟩ := exists_position_of_ne_nan hx
  obtain ⟨j, hj⟩ := exists_position_of_ne_nan hy
  rw [Bool.eq_iff_iff, le_iff hi hj, Bool.not_eq_true', Bool.eq_false_iff, ne_eq, lt_iff hj hi]
  omega

theorem ofInt_ne_nan (n : Int) : (ofInt n : Binary f) ≠ .nan := by
  rw [ofInt, ofUnits, ofRank]
  split <;> simp

end Binary

namespace Operator

/-- The comparison that holds where this one does not. -/
def opposite : Operator → Operator
  | less => greaterEqual
  | greaterEqual => less
  | greater => lessEqual
  | lessEqual => greater
  | equal => notEqual
  | notEqual => equal
  | op => op

def isEquality : Operator → Bool
  | equal | notEqual => true
  | _ => false

variable {op : Operator}

theorem holdsInt_opposite (hop : op.isComparison = true) (a b : Int) :
    op.opposite.holdsInt a b = !op.holdsInt a b := by
  rw [Bool.eq_iff_iff]
  cases op with
  | quotient | remainder => simp [isComparison] at hop
  | equal | notEqual => simp [opposite, holdsInt]
  | less | lessEqual | greater | greaterEqual => simp [opposite, holdsInt]

/-- Whether floats are equal or not is decided even if they are no numbers. -/
theorem holdsFloat_opposite (hop : op.isComparison = true) {x y : Single}
    (h : op.isEquality = true ∨ x ≠ .nan ∧ y ≠ .nan) :
    op.opposite.holdsFloat x y = !op.holdsFloat x y := by
  have order : op.isEquality = false → x.le y = (!y.lt x) ∧ y.le x = (!x.lt y) := by
    intro hop
    obtain ⟨hx, hy⟩ := h.resolve_left (by simp [hop])
    exact ⟨Binary.le_eq_not_lt hx hy, Binary.le_eq_not_lt hy hx⟩
  cases op with
  | quotient | remainder => simp [isComparison] at hop
  | equal | notEqual => simp [opposite, holdsFloat]
  | less | lessEqual | greater | greaterEqual => simp [opposite, holdsFloat, order rfl]

theorem holdsInt_converse (hop : op.isComparison = true) (a b : Int) :
    op.converse.holdsInt b a = op.holdsInt a b := by
  cases op with
  | quotient | remainder => simp [isComparison] at hop
  | equal | notEqual => simp only [converse, holdsInt, bne, Bool.beq_comm]
  | less | lessEqual | greater | greaterEqual => rfl

theorem holdsFloat_converse (hop : op.isComparison = true) (x y : Single) :
    op.converse.holdsFloat y x = op.holdsFloat x y := by
  cases op with
  | quotient | remainder => simp [isComparison] at hop
  | equal | notEqual => simp only [converse, holdsFloat, Binary.isClose_comm y x]
  | less | lessEqual | greater | greaterEqual => rfl

theorem holdsAlike_opposite (hop : op.isEquality = true) (same : Bool) :
    op.opposite.holdsAlike same = !op.holdsAlike same := by
  cases op <;> simp [isEquality] at hop <;> simp [opposite, holdsAlike]

theorem holdsAlike_converse (op : Operator) (same : Bool) :
    op.converse.holdsAlike same = op.holdsAlike same := by
  cases op <;> rfl

theorem holdsAlike_of_not_isEquality (hop : op.isEquality = false) (same : Bool) :
    op.holdsAlike same = false := by
  cases op <;> simp [isEquality] at hop <;> rfl

end Operator

theorem Text.sameLetters_comm (a b : List Char) : sameLetters a b = sameLetters b a :=
  Bool.beq_comm

namespace Value

/-- Whether two values can be compared: two numbers, two texts or two truth values. -/
def isComparable (v w : Value) : Bool :=
  (v.isNumber && w.isNumber) || (v.kind == .text && w.kind == .text) ||
    (v.kind == .boolean && w.kind == .boolean)

/-- The ways in which two values are compared. -/
inductive Path : Value → Value → Prop where
  | integers (a b : Int32) : Path (integer a) (integer b)
  | floats {v w : Value} (hv : v.isNumber = true) (hw : w.isNumber = true)
      (hfloat : v.kind = .float ∨ w.kind = .float) : Path v w
  | texts (s t : String) : Path (text s) (text t)
  | booleans (a b : Bool) : Path (boolean a) (boolean b)

variable {v w : Value}

theorem path_of_isComparable (h : isComparable v w = true) : Path v w := by
  cases v with
  | absent => cases w <;> simp [isComparable, isNumber, kind] at h
  | integer a =>
    cases w with
    | integer b => exact .integers a b
    | float y => exact .floats rfl rfl (.inr rfl)
    | absent | boolean | text => simp [isComparable, isNumber, kind] at h
  | float x =>
    cases w with
    | integer | float => exact .floats rfl rfl (.inl rfl)
    | absent | boolean | text => simp [isComparable, isNumber, kind] at h
  | boolean a =>
    cases w with
    | boolean b => exact .booleans a b
    | absent | integer | float | text => simp [isComparable, isNumber, kind] at h
  | text s =>
    cases w with
    | text t => exact .texts s t
    | absent | integer | float | boolean => simp [isComparable, isNumber, kind] at h

theorem isComparable_comm (v w : Value) : isComparable v w = isComparable w v := by
  simp only [isComparable, Bool.and_comm]

theorem satisfies_of_not_isComparable (h : isComparable v w = false) (op : Operator) :
    v.satisfies op w = false := by
  cases v <;> cases w <;> first | rfl | simp [isComparable, isNumber, kind] at h

theorem isComparable_of_satisfies {op : Operator} (h : v.satisfies op w = true) :
    v.isComparable w = true := by
  cases hc : v.isComparable w with
  | true => rfl
  | false => exact absurd h (Bool.eq_false_iff.mp (satisfies_of_not_isComparable hc op))

theorem satisfies_floats (hv : v.isNumber = true) (hw : w.isNumber = true)
    (hfloat : v.kind = .float ∨ w.kind = .float) (op : Operator) :
    v.satisfies op w = op.holdsFloat v.toSingle w.toSingle := by
  cases v <;> cases w <;> first | rfl | simp [isNumber, kind] at hv hw hfloat

theorem toSingle_ne_nan (hv : v.isNumber = true) (h : v ≠ float .nan) : v.toSingle ≠ .nan := by
  cases v with
  | integer n => exact Binary.ofInt_ne_nan n.toInt
  | float x => simpa [toSingle] using h
  | absent | boolean | text => simp [isNumber, kind] at hv

/-- Comparable values satisfy an equality or its opposite, and numbers a comparison or its
opposite. -/
theorem satisfies_opposite (op : Operator) (hop : op.isComparison = true)
    (h : isComparable v w = true)
    (hnumbers : op.isEquality = true ∨
      (v.isNumber = true ∧ w.isNumber = true) ∧ v ≠ float .nan ∧ w ≠ float .nan) :
    v.satisfies op.opposite w = !v.satisfies op w := by
  cases path_of_isComparable h with
  | integers a b => exact Operator.holdsInt_opposite hop a.toInt b.toInt
  | floats hv hw hfloat =>
    rw [satisfies_floats hv hw hfloat, satisfies_floats hv hw hfloat]
    refine Operator.holdsFloat_opposite hop (hnumbers.imp_right fun ⟨_, hx, hy⟩ => ?_)
    exact ⟨toSingle_ne_nan hv hx, toSingle_ne_nan hw hy⟩
  | texts s t =>
    have hop := hnumbers.resolve_right (by simp [isNumber, kind])
    exact Operator.holdsAlike_opposite hop _
  | booleans a b =>
    have hop := hnumbers.resolve_right (by simp [isNumber, kind])
    exact Operator.holdsAlike_opposite hop _

theorem satisfies_converse {op : Operator} (hop : op.isComparison = true) (v w : Value) :
    w.satisfies op.converse v = v.satisfies op w := by
  cases h : isComparable v w with
  | false =>
    rw [satisfies_of_not_isComparable h,
      satisfies_of_not_isComparable (isComparable_comm w v ▸ h)]
  | true =>
    cases path_of_isComparable h with
    | integers a b => exact Operator.holdsInt_converse hop a.toInt b.toInt
    | floats hv hw hfloat =>
      rw [satisfies_floats hv hw hfloat, satisfies_floats hw hv hfloat.symm]
      exact Operator.holdsFloat_converse hop v.toSingle w.toSingle
    | texts s t =>
      rw [satisfies, satisfies, Text.sameLetters_comm, Operator.holdsAlike_converse]
    | booleans a b =>
      rw [satisfies, satisfies, Bool.beq_comm, Operator.holdsAlike_converse]

theorem isNumber_of_satisfies {op : Operator} (hop : op.isEquality = false)
    (h : v.satisfies op w = true) : v.isNumber = true ∧ w.isNumber = true := by
  cases path_of_isComparable (isComparable_of_satisfies h) with
  | integers => exact ⟨rfl, rfl⟩
  | floats hv hw => exact ⟨hv, hw⟩
  | texts s t => simp [satisfies, Operator.holdsAlike_of_not_isEquality hop] at h
  | booleans a b => simp [satisfies, Operator.holdsAlike_of_not_isEquality hop] at h

theorem satisfies_of_not_isNumber {op : Operator} (hop : op.isEquality = false)
    (hw : w.isNumber = false) : v.satisfies op w = false := by
  rw [Bool.eq_false_iff]
  intro h
  exact Bool.eq_false_iff.mp hw (isNumber_of_satisfies hop h).2

/-- Values that agree count as equal, texts in particular whose letters are the same anyhow. -/
theorem satisfies_equal_of_agrees (h : v.agrees w = true) : v.satisfies .equal w = true := by
  unfold agrees at h
  split at h
  · next a b =>
    rw [beq_iff_eq] at h
    simp [satisfies, Operator.holdsInt, h]
  · exact h
  · exact h
  · next s t =>
    rw [beq_iff_eq] at h
    simp [satisfies, Operator.holdsAlike, h]
  · simp at h

end Value

namespace Criterion

/-- Comparable values are equal or not equal and others satisfy no operator; order, quotient and
remainder are for numbers; of an order and its opposite one holds between numbers; exchanging input
and reference is the converse of a comparison; and values that agree are equal. -/
theorem single_laws (r v : Value) :
    (v.isComparable r = true →
      (single .equal r).accepts v = !(single .notEqual r).accepts v) ∧
    (v.isComparable r = false → ∀ op, (single op r).accepts v = false) ∧
    (∀ op : Operator, op.isEquality = false → (single op r).accepts v = true →
      v.isNumber = true ∧ r.isNumber = true) ∧
    ((v.isNumber = true ∧ r.isNumber = true) ∧ v ≠ .float .nan ∧ r ≠ .float .nan →
      (single .less r).accepts v = !(single .greaterEqual r).accepts v ∧
      (single .greater r).accepts v = !(single .lessEqual r).accepts v) ∧
    (∀ op : Operator, op.isComparison = true →
      (single op r).accepts v = (single op.converse v).accepts r) ∧
    (v.agrees r = true → (single .equal r).accepts v = true) := by
  refine ⟨?_, Value.satisfies_of_not_isComparable, ?_, ?_, ?_, Value.satisfies_equal_of_agrees⟩
  · intro h
    exact Value.satisfies_opposite .notEqual rfl h (.inl rfl)
  · intro op hop h
    exact Value.isNumber_of_satisfies hop h
  · intro h
    have hc : v.isComparable r = true := by simp [Value.isComparable, h.1]
    constructor
    · exact Value.satisfies_opposite .greaterEqual rfl hc (.inr h)
    · exact Value.satisfies_opposite .lessEqual rfl hc (.inr h)
  · intro op hop
    exact (Value.satisfies_converse hop v r).symm

/-- Not a number against itself, a text against the integer that it spells, the quotient of floats,
an infinity against the greatest integer, and the two zeros. -/
theorem single_laws_at_extremes :
    (Value.isComparable (.float .nan) (.float .nan) = true ∧
      (single .equal (.float .nan)).accepts (.float .nan) =
        !(single .notEqual (.float .nan)).accepts (.float .nan)) ∧
    (Value.isComparable (.text "5") (.integer 5) = false ∧
      ∀ op, (single op (.integer 5)).accepts (.text "5") = false) ∧
    ((single .quotient (.integer 4)).accepts (.float (.ofInt 19)) = true ∧
      Value.isNumber (.float (.ofInt 19)) = true ∧ Value.isNumber (.integer 4) = true) ∧
    ((single .less (.integer 2147483647)).accepts (.float (.infinite false)) =
        !(single .greaterEqual (.integer 2147483647)).accepts (.float (.infinite false)) ∧
      (single .greater (.integer 2147483647)).accepts (.float (.infinite false)) =
        !(single .lessEqual (.integer 2147483647)).accepts (.float (.infinite false))) ∧
    (single .less (.integer 2147483647)).accepts (.float (.infinite false)) =
      (single .greater (.float (.infinite false))).accepts (.integer 2147483647) ∧
    (Value.agrees (.float (.zero false)) (.float (.zero true)) = true ∧
      (single .equal (.float (.zero true))).accepts (.float (.zero false)) = true) := by
  have hquotient : (single .quotient (.integer 4)).accepts (.float (.ofInt 19)) = true := by decide
  have hagrees : Value.agrees (.float (.zero false)) (.float (.zero true)) = true := by decide
  refine ⟨⟨rfl, ?_⟩, ⟨rfl, ?_⟩, ⟨hquotient, ?_⟩, ?_, ?_, hagrees, ?_⟩
  · exact (single_laws (.float .nan) (.float .nan)).1 rfl
  · exact (single_laws (.integer 5) (.text "5")).2.1 rfl
  · exact (single_laws (.integer 4) (.float (.ofInt 19))).2.2.1 .quotient rfl hquotient
  · exact (single_laws (.integer 2147483647) (.float (.infinite false))).2.2.2.1
      ⟨⟨rfl, rfl⟩, by simp, by simp⟩
  · exact (single_laws (.integer 2147483647) (.float (.infinite false))).2.2.2.2.1 .less rfl
  · exact (single_laws (.float (.zero true)) (.float (.zero false))).2.2.2.2.2 hagrees

end Criterion
end Criteria
