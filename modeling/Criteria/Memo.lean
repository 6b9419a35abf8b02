import Criteria.Criterion.Accepts
import Criteria.Criterion.Expression
import Std.Data.HashMap

/-!
A store of parsed expressions under their raw text. It grows up to a fixed capacity; from then on
new expressions are answered without being kept.
-/

namespace Criteria
set_option autoImplicit false

structure Memo where
  entries : Std.HashMap String Criterion

namespace Memo

def capacity : Nat := 4096

def empty : Memo := ⟨∅⟩

def size (m : Memo) : Nat := m.entries.size

def contains (m : Memo) (text : String) : Bool := m.entries.contains text

/-- The memo with one more expression, unless it already holds `limit` others, and whether it took
it. An expression that it holds is kept anew. -/
def keep (m : Memo) (limit : Nat) (text : String) (c : Criterion) : Bool × Memo :=
  if limit ≤ m.size ∧ m.contains text = false then (false, m)
  else (true, ⟨m.entries.insert text c⟩)

/-- The criterion of a text, kept if it is new. -/
def get (m : Memo) (text : String) : Criterion × Memo :=
  match m.entries[text]? with
  | some c => (c, m)
  | none =>
    let c := Criterion.parse text
    (c, (m.keep capacity text c).2)

/-- Whether a value meets the criterion of a text, which is kept if it is new. -/
def accepts (m : Memo) (text : String) (input : Value) : Bool × Memo :=
  match m.entries[text]? with
  | some c => (c.accepts input, m)
  | none =>
    let (c, m) := m.get text
    (c.accepts input, m)

inductive Call where
  | get (text : String)
  | accepts (text : String) (input : Value)
  | contains (text : String)
  | size
  | clear

inductive Answer where
  | criterion (c : Criterion)
  | verdict (b : Bool)
  | count (n : Nat)
  | done

def step (m : Memo) : Call → Answer × Memo
  | .get text => let (c, m) := m.get text; (.criterion c, m)
  | .accepts text input => let (b, m) := m.accepts text input; (.verdict b, m)
  | .contains text => (.verdict (m.contains text), m)
  | .size => (.count m.size, m)
  | .clear => (.done, empty)

def run (m : Memo) (calls : List Call) : Memo :=
  calls.foldl (fun m call => (m.step call).2) m

end Memo
end Criteria
