import Criteria.Error
import Criteria.Text.Blank

/-!
The eight operators, their symbols, and their converses.
-/

namespace Criteria
set_option autoImplicit false

/-- `quotient` and `remainder` hold when the input divided by the reference gives the reference
again, as the quotient or as the remainder. -/
inductive Operator where
  | lessEqual
  | greaterEqual
  | less
  | greater
  | equal
  | notEqual
  | quotient
  | remainder
  deriving DecidableEq, Repr

namespace Operator

/-- All operators in the order in which their symbols are looked for: a symbol comes after the
longer ones it begins. -/
def all : List Operator :=
  [lessEqual, greaterEqual, less, greater, equal, notEqual, quotient, remainder]

def symbol : Operator → List Char
  | lessEqual => ['<', '=']
  | greaterEqual => ['>', '=']
  | less => ['<']
  | greater => ['>']
  | equal => ['=', '=']
  | notEqual => ['!', '=']
  | quotient => ['%', '=']
  | remainder => ['/', '=']

def name (op : Operator) : String := String.ofList op.symbol

/-- The operator with its sides exchanged. Those without a converse stay. -/
def converse : Operator → Operator
  | lessEqual => greaterEqual
  | greaterEqual => lessEqual
  | less => greater
  | greater => less
  | op => op

def read (text : String) : Except Error Operator :=
  let symbol := Text.trim text.toList
  match all.find? (·.symbol == symbol) with
  | some op => .ok op
  | none => .error (.unknownOperator (String.ofList symbol))

/-- The first operator, in the order of `all`, whose symbol begins the text, and the rest. -/
def leading? (cs : List Char) : Option (Operator × List Char) :=
  all.findSome? fun op => (op.symbol.isPrefixOf? cs).map fun rest => (op, rest)

/-- The first operator, in the order of `all`, whose symbol ends the text, and what precedes it. -/
def trailing? (cs : List Char) : Option (Operator × List Char) :=
  all.findSome? fun op => (op.symbol.isSuffixOf? cs).map fun rest => (op, rest)

theorem mem_all (op : Operator) : op ∈ all := by cases op <;> decide

@[simp] theorem converse_converse (op : Operator) : op.converse.converse = op := by cases op <;> rfl

theorem symbol_injective {a b : Operator} (h : a.symbol = b.symbol) : a = b := by
  revert h; cases a <;> cases b <;> decide

theorem symbol_ne_nil (op : Operator) : op.symbol ≠ [] := by cases op <;> decide

end Operator
end Criteria
