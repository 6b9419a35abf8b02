import Mathlib.Data.List.Basic
import Criteria.Operator.Basic

/-!
# Operator symbols at either end of a text

Behind a text at most one symbol fits, whatever stands before it. In front of a text the only
overlap is between a strict sign and the sign that extends it by an equals sign.
-/

namespace Criteria.Operator
set_option autoImplicit false

theorem symbol_length (op : Operator) : 1 ≤ op.symbol.length ∧ op.symbol.length ≤ 2 := by
  cases op <;> decide

/-- A strict sign in front of an equals sign reads as another operator. -/
def fuses (op : Operator) (cs : List Char) : Bool :=
  (op == less || op == greater) && cs.head? == some '='

theorem of_leading? {cs rest : List Char} {op : Operator} (h : leading? cs = some (op, rest)) :
    cs = op.symbol ++ rest := by
  obtain ⟨q, _, hq⟩ := List.exists_of_findSome?_eq_some h
  obtain ⟨r, hr, he⟩ := Option.map_eq_some_iff.mp hq
  obtain ⟨rfl, rfl⟩ := Prod.mk.inj he
  exact (List.isPrefixOf?_eq_some_iff_append_eq.mp hr).symm

theorem of_trailing? {cs rest : List Char} {op : Operator} (h : trailing? cs = some (op, rest)) :
    cs = rest ++ op.symbol := by
  obtain ⟨q, _, hq⟩ := List.exists_of_findSome?_eq_some h
  obtain ⟨r, hr, he⟩ := Option.map_eq_some_iff.mp hq
  obtain ⟨rfl, rfl⟩ := Prod.mk.inj he
  exact (List.isSuffixOf?_eq_some_iff_append_eq.mp hr).symm

theorem eq_of_append_symbol {a b : List Char} {op q : Operator}
    (h : a ++ op.symbol = b ++ q.symbol) : op = q := by
  have last := congrArg List.reverse h
  simp only [List.reverse_append] at last
  revert last
  cases op <;> cases q <;> simp [symbol]

theorem trailing?_append (cs : List Char) (op : Operator) :
    trailing? (cs ++ op.symbol) = some (op, cs) := by
  cases h : trailing? (cs ++ op.symbol) with
  | none =>
    have hop := List.findSome?_eq_none_iff.mp h op (mem_all op)
    rw [Option.map_eq_none_iff] at hop
    rw [List.isSuffixOf?_eq_some_iff_append_eq.mpr rfl] at hop
    simp at hop
  | some r =>
    obtain ⟨q, rest⟩ := r
    have he := of_trailing? h
    obtain rfl := eq_of_append_symbol he
    rw [List.append_cancel_right he]

/-- The sign that a strict sign becomes in front of an equals sign. -/
def widened : Operator → Operator
  | less => lessEqual
  | greater => greaterEqual
  | op => op

theorem of_fuses {op : Operator} {cs : List Char} (h : op.fuses cs = true) :
    (op = less ∨ op = greater) ∧ ∃ r, cs = '=' :: r := by
  simp only [fuses, Bool.and_eq_true, Bool.or_eq_true, beq_iff_eq] at h
  obtain ⟨hop, hcs⟩ := h
  exact ⟨hop, List.head?_eq_some_iff.mp hcs⟩

theorem symbol_widened {op : Operator} (h : op = less ∨ op = greater) (cs : List Char) :
    op.symbol ++ '=' :: cs = op.widened.symbol ++ cs := by
  rcases h with rfl | rfl <;> rfl

theorem widened_ne {op : Operator} (h : op = less ∨ op = greater) : op.widened ≠ op := by
  rcases h with rfl | rfl <;> decide

theorem widened_fuses (op : Operator) (cs : List Char) : op.widened.fuses cs = false := by
  cases op <;> rfl

theorem leading?_append {op : Operator} {cs : List Char} (h : op.fuses cs = false) :
    leading? (op.symbol ++ cs) = some (op, cs) := by
  cases op with
  | less | greater =>
    cases cs with
    | nil => rfl
    | cons c r =>
      have hc : c ≠ '=' := by simpa [fuses] using h
      simp [leading?, all, symbol, List.isPrefixOf?, hc.symm]
  | lessEqual | greaterEqual | equal | notEqual | quotient | remainder => rfl

theorem leading?_append_fused {op : Operator} {cs : List Char} (h : op = less ∨ op = greater) :
    leading? (op.symbol ++ '=' :: cs) = some (op.widened, cs) := by
  rw [symbol_widened h]
  exact leading?_append (widened_fuses op cs)

theorem leading?_ne_none (op : Operator) (cs : List Char) : leading? (op.symbol ++ cs) ≠ none := by
  cases h : op.fuses cs with
  | false => simp [leading?_append h]
  | true =>
    obtain ⟨hop, r, rfl⟩ := of_fuses h
    simp [leading?_append_fused hop]

theorem leading?_longest {cs rest : List Char} {op : Operator} (h : leading? cs = some (op, rest))
    (q : Operator) (hq : q.symbol <+: cs) : q.symbol.length ≤ op.symbol.length := by
  obtain ⟨t, rfl⟩ := hq
  cases hf : q.fuses t with
  | false =>
    rw [leading?_append hf] at h
    obtain ⟨rfl, rfl⟩ := Prod.mk.inj (Option.some.inj h)
    exact Nat.le_refl _
  | true =>
    have hone : q.symbol.length = 1 := by
      rcases (of_fuses hf).1 with rfl | rfl <;> rfl
    exact hone ▸ (symbol_length op).1

end Criteria.Operator
