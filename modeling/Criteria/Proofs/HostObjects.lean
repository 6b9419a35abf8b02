import Criteria.Host

/-!
# What objects are converted to

The types are asked about in an order in which a truth value is not taken for an integer and a member
of an enumeration is not taken for the integer or the text that it can be. So objects of one type go
to values of one kind each. A conversion fails only with what a view raised or for want of a type.
-/

namespace Criteria.Host
set_option autoImplicit false

namespace Object

theorem toValue_none : none.toValue = .ok .absent := rfl

theorem toValue_bool (b : Bool) : (bool b).toValue = .ok (.boolean b) := rfl

theorem toValue_float (x : Double) : (float x).toValue = .ok (.float x.convert) := rfl

theorem toValue_str (s : String) : (str s).toValue = .ok (.text s) := rfl

theorem toValue_member (name : Except Error String) (o : Object) :
    (member name o).toValue = name.map .text := rfl

theorem toValue_other (typeName : String) :
    (other typeName).toValue = .error (.unsupportedValue typeName) := rfl

section
variable {n : Int}

theorem toValue_int (h : -2 ^ 63 ≤ n ∧ n < 2 ^ 63) : (int n).toValue = .ok (.ofInt n) := by
  have hview : (int n).int64 = .ok (.ofInt n) := if_pos h
  have hvalue : (int n).integerValue = .ok (.ofInt (Int64.ofInt n).toInt) := by
    rw [integerValue, hview]
  rw [Int64.toInt_ofInt_of_le h.1 h.2] at hvalue
  exact hvalue

/-- An integer that needs more than 64 bits goes through a double. -/
theorem toValue_int_of_wide (h : ¬ (-2 ^ 63 ≤ n ∧ n < 2 ^ 63)) :
    (int n).toValue = (int n).double.map fun x => .float x.convert := by
  have hview : (int n).int64 = .error (.raised "OverflowError" "int too large to convert") :=
    if_neg h
  have hvalue : (int n).integerValue = (int n).double.map fun x => .float x.convert := by
    rw [integerValue, hview]
  exact hvalue

end

/-- The errors that a conversion can end with: those that the views raised, except for the view in
64 bits, and a type without values. -/
inductive Raises (o : Object) (e : Error) : Prop where
  | name (h : o.name = .error e)
  | truth (h : o.truth = .error e)
  | double (h : o.double = .error e)
  | text (h : o.text = .error e)
  | typeName (h : o.typeName = .error e)
  | unsupported (typeName : String) (h : o.typeName = .ok typeName)
      (same : e = .unsupportedValue typeName)

section
variable {o : Object} {e : Error}

theorem error_of_map {α β : Type} {f : α → β} {x : Except Error α} (h : x.map f = .error e) :
    x = .error e := by
  cases x with
  | error a => exact congrArg Except.error (Except.error.inj h)
  | ok a => exact nomatch h

theorem raises_of_integerValue (h : o.integerValue = .error e) : Raises o e := by
  unfold integerValue at h
  split at h
  · exact nomatch h
  · exact .double (error_of_map h)

theorem raises_of_toValue (h : o.toValue = .error e) : Raises o e := by
  unfold toValue at h
  split at h
  · exact nomatch h
  split at h
  · exact .name (error_of_map h)
  split at h
  · exact .truth (error_of_map h)
  split at h
  · exact raises_of_integerValue h
  split at h
  · exact .double (error_of_map h)
  split at h
  · exact .text (error_of_map h)
  cases htype : o.typeName with
  | error a =>
    rw [htype] at h
    exact .typeName (htype.trans (congrArg Except.error (Except.error.inj h)))
  | ok typeName =>
    rw [htype] at h
    exact .unsupported typeName htype (Except.error.inj h).symm

end

end Object

section
variable {o : Object} {e : Error} (h : o.toValue = .error e)
include h

/-- An object that cannot be converted meets no criterion and misses none. -/
theorem accepts_of_error (c : Criterion) : accepts c o = .error e := by
  rw [accepts, h]
  rfl

theorem check_of_error (m : Memo) (text : String) : check m text o = (.error e, m) := by
  rw [check, h]

end

end Criteria.Host
