import Criteria.Criterion.Expression
import Criteria.Proofs.Inference
import Criteria.Proofs.Symbols

/-!
# The grammar of expressions

A range text is cut into its parts in one way only, and a text that has these parts is a range.
Every other text is blank, has an operator or an exclamation mark in front, or is a bare value.
-/

namespace Criteria
set_option autoImplicit false

namespace Operator

/-- The characters of an operator that may be left out. -/
def written : Option Operator → List Char
  | none => []
  | some op => op.symbol

theorem symbol_plain (op : Operator) : ∀ c ∈ op.symbol,
    isNumeral c = false ∧ Text.isBlank c = false ∧ Criterion.isSlot c = false := by
  have h : ∀ c ∈ op.symbol, isNumeral c = false ∧ (0x20 < c.toNat ∧ c.toNat < 0x7F) ∧
      Criterion.isSlot c = false := by
    cases op <;> simp [symbol, isNumeral, Criterion.isSlot]
  intro c hc
  obtain ⟨hn, hv, hs⟩ := h c hc
  exact ⟨hn, Text.isBlank_of_visible hv, hs⟩

theorem written_inj {o q : Option Operator} (h : written o = written q) : o = q := by
  cases o with
  | none =>
    cases q with
    | none => rfl
    | some q => exact absurd h.symm (symbol_ne_nil q)
  | some o =>
    cases q with
    | none => exact absurd h (symbol_ne_nil o)
    | some q => exact congrArg some (symbol_injective h)

end Operator

namespace Criterion
open Operator

/-- A text that spells an integer or a finite float. -/
def IsNumberText (cs : List Char) : Prop := (Value.ofChars cs).isNumber = true

instance (cs : List Char) : Decidable (IsNumberText cs) := inferInstanceAs (Decidable (_ = true))

theorem isNumberText_congr {a b : List Char} (h : Text.trim a = Text.trim b) :
    IsNumberText a ↔ IsNumberText b := by
  rw [IsNumberText, Value.ofChars_congr h, IsNumberText]

theorem IsNumberText.symbol_plain {cs : List Char} (h : IsNumberText cs) {c : Char} (hc : c ∈ cs)
    (op : Operator) : c ∉ op.symbol := by
  intro hm
  obtain ⟨hn, hb, _⟩ := Operator.symbol_plain op c hm
  rcases (Value.numberText_chars h).1 c hc with h | h
  · exact Bool.eq_false_iff.mp hn h
  · exact Bool.eq_false_iff.mp hb h

theorem IsNumberText.no_symbol {cs : List Char} (h : IsNumberText cs) (a b : List Char)
    (op : Operator) : cs ≠ a ++ (op.symbol ++ b) := by
  intro he
  obtain ⟨c, s, hs⟩ := List.exists_cons_of_ne_nil (symbol_ne_nil op)
  have hc : c ∈ op.symbol := by
    rw [hs]
    exact List.mem_cons_self
  apply h.symbol_plain _ op hc
  rw [he]
  exact List.mem_append_right a (List.mem_append_left b hc)

theorem IsNumberText.leading? {cs : List Char} (h : IsNumberText cs) : leading? cs = none := by
  cases hl : Operator.leading? cs with
  | none => rfl
  | some r => exact absurd (of_leading? hl) (h.no_symbol [] r.2 r.1)

theorem IsNumberText.trailing? {cs : List Char} (h : IsNumberText cs) : trailing? cs = none := by
  cases hl : Operator.trailing? cs with
  | none => rfl
  | some r =>
    refine absurd ?_ (h.no_symbol r.2 [] r.1)
    rw [List.append_nil]
    exact of_trailing? hl

theorem IsNumberText.fuses {cs : List Char} (h : IsNumberText cs) (op : Operator) :
    op.fuses cs = false := by
  cases hf : op.fuses cs with
  | false => rfl
  | true =>
    obtain ⟨_, r, rfl⟩ := of_fuses hf
    exact absurd (by decide) (h.symbol_plain List.mem_cons_self .equal)

theorem IsNumberText.trailing?_written {cs : List Char} (h : IsNumberText cs)
    (o : Option Operator) :
    (Operator.trailing? (cs ++ written o)).getD (.equal, cs ++ written o) =
      (o.getD .equal, cs) := by
  cases o with
  | none => simp [written, h.trailing?]
  | some op => simp [written, trailing?_append]

theorem IsNumberText.leading?_written {cs : List Char} (h : IsNumberText cs)
    (o : Option Operator) :
    (Operator.leading? (written o ++ cs)).getD (.equal, written o ++ cs) =
      (o.getD .equal, cs) := by
  cases o with
  | none => simp [written, h.leading?]
  | some op => simp [written, leading?_append (h.fuses op)]

theorem exists_trailing_written (cs : List Char) : ∃ o rest, cs = rest ++ written o ∧
    (Operator.trailing? cs).getD (.equal, cs) = (o.getD .equal, rest) := by
  cases h : Operator.trailing? cs with
  | none => exact ⟨none, cs, by simp [written], rfl⟩
  | some r => exact ⟨some r.1, r.2, of_trailing? h, rfl⟩

theorem exists_leading_written (cs : List Char) : ∃ o rest, cs = written o ++ rest ∧
    (Operator.leading? cs).getD (.equal, cs) = (o.getD .equal, rest) := by
  cases h : Operator.leading? cs with
  | none => exact ⟨none, cs, by simp [written], rfl⟩
  | some r => exact ⟨some r.1, r.2, of_leading? h, rfl⟩

theorem numericBound?_eq_some_iff {op : Operator} {cs : List Char} {b : Bound} :
    numericBound? op cs = some b ↔ IsNumberText cs ∧ b = ⟨op, Value.ofChars cs⟩ := by
  unfold numericBound? IsNumberText
  simp only [Option.ite_none_right_eq_some, Option.some.injEq]
  exact and_congr_right fun _ => eq_comm

theorem lowerBound?_eq_some_iff {cs : List Char} {b : Bound} :
    lowerBound? cs = some b ↔ ∃ number o, Text.trim cs = number ++ written o ∧
      IsNumberText number ∧ b = ⟨(o.getD .equal).converse, Value.ofChars number⟩ := by
  constructor
  · intro h
    obtain ⟨o, rest, htext, hsplit⟩ := exists_trailing_written (Text.trim cs)
    simp only [lowerBound?, hsplit, numericBound?_eq_some_iff] at h
    exact ⟨rest, o, htext, h⟩
  · rintro ⟨number, o, htext, hnumber, rfl⟩
    simp only [lowerBound?, htext, hnumber.trailing?_written o]
    exact numericBound?_eq_some_iff.mpr ⟨hnumber, rfl⟩

theorem upperBound?_eq_some_iff {cs : List Char} {b : Bound} :
    upperBound? cs = some b ↔ ∃ o number, Text.trim cs = written o ++ number ∧
      IsNumberText number ∧ b = ⟨o.getD .equal, Value.ofChars number⟩ := by
  constructor
  · intro h
    obtain ⟨o, rest, htext, hsplit⟩ := exists_leading_written (Text.trim cs)
    simp only [upperBound?, hsplit, numericBound?_eq_some_iff] at h
    exact ⟨o, rest, htext, h⟩
  · rintro ⟨o, number, htext, hnumber, rfl⟩
    simp only [upperBound?, htext, hnumber.leading?_written o]
    exact numericBound?_eq_some_iff.mpr ⟨hnumber, rfl⟩

theorem splitSlot?_eq_some_iff {cs left right : List Char} :
    splitSlot? cs = some (left, right) ↔ ∃ slot, isSlot slot ∧ cs = left ++ slot :: right ∧
      (∀ c ∈ left, isSlot c = false) ∧ ∀ c ∈ right, isSlot c = false := by
  constructor
  · intro h
    have hcut := List.takeWhile_append_dropWhile (p := (!isSlot ·)) (l := cs)
    have hleft : ∀ c ∈ cs.takeWhile (!isSlot ·), isSlot c = false := by
      intro c hc
      simpa using List.all_eq_true.mp List.all_takeWhile c hc
    unfold splitSlot? at h
    split at h
    · simp at h
    next slot rest hdrop =>
    split at h
    · simp at h
    next hright =>
    obtain ⟨rfl, rfl⟩ := Prod.mk.inj (Option.some.inj h)
    have hslot : isSlot slot = true := by
      have := List.head_dropWhile_not (!isSlot ·) (l := cs) (by simp [hdrop])
      simpa [hdrop] using this
    refine ⟨slot, hslot, ?_, hleft, ?_⟩
    · rw [← hdrop, hcut]
    · simpa using hright
  · rintro ⟨slot, hslot, rfl, hleft, hright⟩
    have hleft : ∀ c ∈ left, (!isSlot c) = true := by simpa using hleft
    unfold splitSlot?
    rw [List.dropWhile_append_of_pos hleft, List.takeWhile_append_of_pos hleft]
    have hany : right.any isSlot = false := by simpa using hright
    simp [hslot, hany]

/-- The parts of a range text: on either side of the slot a number and an operator, which may be
left out. -/
structure RangeText where
  left : List Char
  slot : Char
  right : List Char
  lowerNumber : List Char
  lowerOp : Option Operator
  upperOp : Option Operator
  upperNumber : List Char

namespace RangeText

structure Spells (p : RangeText) (cs : List Char) : Prop where
  whole : cs = p.left ++ p.slot :: p.right
  slot : p.slot = 'x' ∨ p.slot = 'X'
  onlySlot : ∀ c ∈ p.left ++ p.right, c ≠ 'x' ∧ c ≠ 'X'
  lower : Text.trim p.left = p.lowerNumber ++ written p.lowerOp
  upper : Text.trim p.right = written p.upperOp ++ p.upperNumber
  lowerNumber : IsNumberText p.lowerNumber
  upperNumber : IsNumberText p.upperNumber

/-- The range that the parts describe. The operator of the left side is read from the slot. -/
def criterion (p : RangeText) : Criterion :=
  range ⟨(p.lowerOp.getD .equal).converse, .ofChars p.lowerNumber⟩
    ⟨p.upperOp.getD .equal, .ofChars p.upperNumber⟩

variable {p q : RangeText} {cs : List Char}

theorem isSlot_iff {c : Char} : isSlot c = true ↔ c = 'x' ∨ c = 'X' := by
  simp [isSlot]

theorem not_isSlot_iff {c : Char} : isSlot c = false ↔ c ≠ 'x' ∧ c ≠ 'X' := by
  simp [isSlot]

theorem Spells.splitSlot? (h : p.Spells cs) : splitSlot? cs = some (p.left, p.right) := by
  apply splitSlot?_eq_some_iff.mpr
  refine ⟨p.slot, isSlot_iff.mpr h.slot, h.whole, ?_, ?_⟩
  · intro c hc
    exact not_isSlot_iff.mpr (h.onlySlot c (List.mem_append_left _ hc))
  · intro c hc
    exact not_isSlot_iff.mpr (h.onlySlot c (List.mem_append_right _ hc))

theorem Spells.range? (h : p.Spells cs) : range? cs = some p.criterion := by
  have hl := lowerBound?_eq_some_iff.mpr ⟨_, _, h.lower, h.lowerNumber, rfl⟩
  have hu := upperBound?_eq_some_iff.mpr ⟨_, _, h.upper, h.upperNumber, rfl⟩
  simp only [Criterion.range?, h.splitSlot?, hl, hu, Option.bind_eq_bind, Option.bind_some]
  rfl

theorem exists_spells {c : Criterion} (h : Criterion.range? cs = some c) :
    ∃ p : RangeText, p.Spells cs ∧ c = p.criterion := by
  simp only [Criterion.range?, Option.bind_eq_bind, Option.bind_eq_some_iff, Option.pure_def,
    Option.some.injEq] at h
  obtain ⟨⟨left, right⟩, hsplit, lower, hlower, upper, hupper, rfl⟩ := h
  obtain ⟨slot, hslot, hwhole, hleft, hright⟩ := splitSlot?_eq_some_iff.mp hsplit
  obtain ⟨ln, lo, hl, hln, rfl⟩ := lowerBound?_eq_some_iff.mp hlower
  obtain ⟨uo, un, hu, hun, rfl⟩ := upperBound?_eq_some_iff.mp hupper
  refine ⟨⟨left, slot, right, ln, lo, uo, un⟩, ⟨hwhole, isSlot_iff.mp hslot, ?_, hl, hu, hln, hun⟩,
    rfl⟩
  intro c hc
  rcases List.mem_append.mp hc with hc | hc
  · exact not_isSlot_iff.mp (hleft c hc)
  · exact not_isSlot_iff.mp (hright c hc)

theorem range?_eq_none_iff : Criterion.range? cs = none ↔ ∀ p : RangeText, ¬ p.Spells cs := by
  constructor
  · intro h p hp
    rw [hp.range?] at h
    simp at h
  · intro h
    cases hr : Criterion.range? cs with
    | none => rfl
    | some c =>
      obtain ⟨p, hp, _⟩ := exists_spells hr
      exact absurd hp (h p)

theorem Spells.unique (hp : p.Spells cs) (hq : q.Spells cs) : p = q := by
  have hsplit := hp.splitSlot?.symm.trans hq.splitSlot?
  obtain ⟨hleft, hright⟩ := Prod.mk.inj (Option.some.inj hsplit)
  have hslot : p.slot = q.slot := by
    have h := hp.whole.symm.trans hq.whole
    rw [hleft, hright] at h
    exact (List.cons.inj (List.append_cancel_left h)).1
  -- Of the two ends, each reads back the number and then the operator that it holds.
  have hlower := hp.lower.symm.trans (hleft ▸ hq.lower)
  have hupper := hp.upper.symm.trans (hright ▸ hq.upper)
  have hln : p.lowerNumber = q.lowerNumber := by
    have h := hp.lowerNumber.trailing?_written p.lowerOp
    rw [hlower, hq.lowerNumber.trailing?_written q.lowerOp] at h
    exact (Prod.mk.inj h).2.symm
  have hun : p.upperNumber = q.upperNumber := by
    have h := hp.upperNumber.leading?_written p.upperOp
    rw [hupper, hq.upperNumber.leading?_written q.upperOp] at h
    exact (Prod.mk.inj h).2.symm
  rw [hln] at hlower
  rw [hun] at hupper
  have hlo := written_inj (List.append_cancel_left hlower)
  have huo := written_inj (List.append_cancel_right hupper)
  cases p
  cases q
  simp_all

theorem Spells.head (h : p.Spells cs) :
    ∃ c r, cs = c :: r ∧ (isNumeral c = true ∨ Text.isBlank c = true) := by
  obtain ⟨a, b, ha, _, hleft⟩ := Text.exists_trim p.left
  obtain ⟨hchars, hne⟩ := Value.numberText_chars h.lowerNumber
  rw [h.lower] at hleft
  have hwhole : cs = (a ++ p.lowerNumber) ++ (written p.lowerOp ++ b ++ p.slot :: p.right) := by
    rw [h.whole, hleft]
    simp only [List.append_assoc]
  have hfirst : ∀ c ∈ a ++ p.lowerNumber, isNumeral c = true ∨ Text.isBlank c = true := by
    intro c hc
    rcases List.mem_append.mp hc with hc | hc
    · exact .inr (ha c hc)
    · exact hchars c hc
  cases hn : a ++ p.lowerNumber with
  | nil => exact absurd (List.append_eq_nil_iff.mp hn).2 hne
  | cons c r =>
    rw [hn] at hwhole hfirst
    exact ⟨c, _, hwhole, hfirst c List.mem_cons_self⟩

theorem not_spells_of_head {c : Char} {r : List Char} (hn : isNumeral c = false)
    (hb : Text.isBlank c = false) : ¬ p.Spells (c :: r) := by
  intro h
  obtain ⟨d, s, he, hd⟩ := h.head
  obtain ⟨rfl, _⟩ := List.cons.inj he
  rcases hd with hd | hd
  · exact Bool.eq_false_iff.mp hn hd
  · exact Bool.eq_false_iff.mp hb hd

theorem isNumeral_not_slot {c : Char} (h : isNumeral c = true) : isSlot c = false := by
  cases hs : isSlot c with
  | false => rfl
  | true => rcases isSlot_iff.mp hs with rfl | rfl <;> exact absurd h (by decide)

/-- Two numbers without blanks, with an operator each, around a slot. -/
theorem spells_numerals {lower upper : List Char} (lowerOp upperOp : Operator)
    (hlower : IsNumberText lower) (hupper : IsNumberText upper)
    (hl : ∀ c ∈ lower, isNumeral c = true) (hu : ∀ c ∈ upper, isNumeral c = true) :
    Spells ⟨lower ++ lowerOp.symbol, 'x', upperOp.symbol ++ upper, lower, some lowerOp,
      some upperOp, upper⟩
      (Text.trim (lower ++ lowerOp.symbol ++ 'x' :: (upperOp.symbol ++ upper))) := by
  -- Without blanks in it the text is not trimmed, and the only slot is the one put in.
  have plain (op : Operator) {number : List Char} (h : ∀ c ∈ number, isNumeral c = true) (c : Char)
      (hc : c ∈ number ∨ c ∈ op.symbol) : Text.isBlank c = false ∧ isSlot c = false := by
    rcases hc with hc | hc
    · exact ⟨isNumeral_not_blank (h c hc), isNumeral_not_slot (h c hc)⟩
    · exact (symbol_plain op c hc).2
  have hleft : ∀ c ∈ lower ++ lowerOp.symbol, Text.isBlank c = false ∧ isSlot c = false :=
    fun c hc => plain lowerOp hl c (List.mem_append.mp hc)
  have hright : ∀ c ∈ upperOp.symbol ++ upper, Text.isBlank c = false ∧ isSlot c = false :=
    fun c hc => plain upperOp hu c (List.mem_append.mp hc).symm
  have htrim : Text.trim (lower ++ lowerOp.symbol ++ 'x' :: (upperOp.symbol ++ upper)) =
      lower ++ lowerOp.symbol ++ 'x' :: (upperOp.symbol ++ upper) := by
    apply Text.trim_plain
    intro c hc
    rcases List.mem_append.mp hc with hc | hc
    · exact (hleft c hc).1
    rcases List.mem_cons.mp hc with rfl | hc
    · exact Text.isBlank_of_visible (by decide)
    · exact (hright c hc).1
  rw [htrim]
  refine ⟨rfl, .inl rfl, ?_, ?_, ?_, hlower, hupper⟩
  · intro c hc
    rcases List.mem_append.mp hc with hc | hc
    · exact not_isSlot_iff.mp (hleft c hc).2
    · exact not_isSlot_iff.mp (hright c hc).2
  · exact Text.trim_plain fun c hc => (hleft c hc).1
  · exact Text.trim_plain fun c hc => (hright c hc).1

theorem not_spells_symbol_append (op : Operator) (r : List Char) : ¬ p.Spells (op.symbol ++ r) := by
  obtain ⟨c, s, hs⟩ := List.exists_cons_of_ne_nil (symbol_ne_nil op)
  obtain ⟨hn, hb, _⟩ := symbol_plain op c (by simp [hs])
  rw [hs]
  exact not_spells_of_head hn hb

end RangeText

/-- What a text without blanks around it means. A range goes before everything else, and an operator
before an exclamation mark; of two symbols that begin the text the longer one counts. -/
inductive Means (cs : List Char) : Criterion → Prop where
  | range (p : RangeText) (h : p.Spells cs) : Means cs p.criterion
  | blank (h : cs = []) : Means cs (single .equal .absent)
  | operator (op : Operator) (rest : List Char) (noRange : ∀ p : RangeText, ¬ p.Spells cs)
      (h : cs = op.symbol ++ rest)
      (longest : ∀ q : Operator, q.symbol <+: cs → q.symbol.length ≤ op.symbol.length) :
      Means cs (single op (.ofChars rest))
  | negation (rest : List Char) (noRange : ∀ p : RangeText, ¬ p.Spells cs)
      (noSymbol : ∀ q : Operator, ¬ q.symbol <+: cs) (h : cs = '!' :: rest) (nonempty : rest ≠ []) :
      Means cs (single .notEqual (.ofChars rest))
  | bare (noRange : ∀ p : RangeText, ¬ p.Spells cs) (noSymbol : ∀ q : Operator, ¬ q.symbol <+: cs)
      (nonempty : cs ≠ []) (noNegation : ∀ rest, cs = '!' :: rest → rest = []) :
      Means cs (single .equal (.ofChars cs))

theorem leading?_eq_none_iff {cs : List Char} :
    Operator.leading? cs = none ↔ ∀ q : Operator, ¬ q.symbol <+: cs := by
  constructor
  · rintro h q ⟨t, rfl⟩
    exact leading?_ne_none q t h
  · intro h
    cases hl : Operator.leading? cs with
    | none => rfl
    | some r => exact absurd ⟨r.2, (of_leading? hl).symm⟩ (h r.1)

theorem ofSingle_means {cs : List Char} (noRange : ∀ p : RangeText, ¬ p.Spells cs)
    (nonempty : cs ≠ []) : Means cs (ofSingle cs) := by
  unfold ofSingle
  split
  · next op rest h => exact .operator op rest noRange (of_leading? h) (leading?_longest h)
  next h =>
  have noSymbol := leading?_eq_none_iff.mp h
  split
  · next c rest => exact .negation (c :: rest) noRange noSymbol rfl (by simp)
  · next hneg =>
    refine .bare noRange noSymbol nonempty fun rest he => ?_
    cases rest with
    | nil => rfl
    | cons c r => exact absurd he (hneg c r)

theorem ofChars_means (text : List Char) : Means (Text.trim text) (ofChars text) := by
  unfold ofChars
  generalize Text.trim text = cs
  simp only
  split
  · next h => exact .blank (List.isEmpty_iff.mp h)
  next h =>
  cases hr : range? cs with
  | none => exact ofSingle_means (RangeText.range?_eq_none_iff.mp hr) (by simpa using h)
  | some c =>
    obtain ⟨p, hp, rfl⟩ := RangeText.exists_spells hr
    exact .range p hp

theorem not_fuses_of_longest {op : Operator} {rest cs : List Char} (h : cs = op.symbol ++ rest)
    (longest : ∀ q : Operator, q.symbol <+: cs → q.symbol.length ≤ op.symbol.length) :
    op.fuses rest = false := by
  cases hf : op.fuses rest with
  | false => rfl
  | true =>
    obtain ⟨hop, r, rfl⟩ := of_fuses hf
    have hwide := longest op.widened ⟨r, by rw [h, symbol_widened hop]⟩
    rcases hop with rfl | rfl <;> exact absurd hwide (by decide)

theorem ofSingle_operator {op : Operator} {rest cs : List Char} (h : cs = op.symbol ++ rest)
    (longest : ∀ q : Operator, q.symbol <+: cs → q.symbol.length ≤ op.symbol.length) :
    ofSingle cs = single op (.ofChars rest) := by
  simp only [ofSingle, h, leading?_append (not_fuses_of_longest h longest)]

theorem ofSingle_negation {c : Char} {rest : List Char} (h : leading? ('!' :: c :: rest) = none) :
    ofSingle ('!' :: c :: rest) = single .notEqual (.ofChars (c :: rest)) := by
  simp only [ofSingle, h]

theorem ofSingle_bare {cs : List Char} (h : leading? cs = none)
    (noNegation : ∀ rest, cs = '!' :: rest → rest = []) :
    ofSingle cs = single .equal (.ofChars cs) := by
  unfold ofSingle
  simp only [h]
  split
  · next c r => exact absurd (noNegation (c :: r) rfl) (by simp)
  · rfl

theorem Means.ofChars_eq {text : List Char} {c : Criterion} (h : Means (Text.trim text) c) :
    ofChars text = c := by
  unfold ofChars
  generalize Text.trim text = cs at h
  cases h with
  | range p h =>
    obtain ⟨c, r, rfl, _⟩ := h.head
    simp [h.range?]
  | blank h => simp [h, Criterion.blank]
  | operator op rest noRange h longest =>
    have hne : cs.isEmpty = false := by
      rw [h]
      cases op <;> rfl
    simp [hne, RangeText.range?_eq_none_iff.mpr noRange, ofSingle_operator h longest]
  | negation rest noRange noSymbol h nonempty =>
    obtain ⟨c, r, rfl⟩ := List.exists_cons_of_ne_nil nonempty
    have hl := leading?_eq_none_iff.mpr noSymbol
    rw [h] at hl ⊢
    simp [RangeText.range?_eq_none_iff.mpr (h ▸ noRange), ofSingle_negation hl]
  | bare noRange noSymbol nonempty noNegation =>
    have hs := ofSingle_bare (leading?_eq_none_iff.mpr noSymbol) noNegation
    simp [nonempty, RangeText.range?_eq_none_iff.mpr noRange, hs]

/-- Numerals on both sides of the slot, each with an operator at it, are a range. -/
theorem ofChars_range_numerals {lower upper : List Char} (lowerOp upperOp : Operator)
    (hlower : IsNumberText lower) (hupper : IsNumberText upper)
    (hl : ∀ c ∈ lower, isNumeral c = true) (hu : ∀ c ∈ upper, isNumeral c = true) :
    ofChars (lower ++ lowerOp.symbol ++ 'x' :: (upperOp.symbol ++ upper)) =
      range ⟨lowerOp.converse, .ofChars lower⟩ ⟨upperOp, .ofChars upper⟩ :=
  (Means.range _ (RangeText.spells_numerals lowerOp upperOp hlower hupper hl hu)).ofChars_eq

theorem ofChars_eq_iff {text : List Char} {c : Criterion} :
    ofChars text = c ↔ Means (Text.trim text) c :=
  ⟨fun h => h ▸ ofChars_means text, Means.ofChars_eq⟩

theorem isRange_iff {text : List Char} : (ofChars text).isRange = true ↔
    ∃ p : RangeText, p.Spells (Text.trim text) := by
  constructor
  · intro h
    have hm := ofChars_means text
    generalize ofChars text = c at h hm
    cases hm with
    | range p hp => exact ⟨p, hp⟩
    | blank | operator | negation | bare => simp [isRange] at h
  · rintro ⟨p, hp⟩
    rw [(Means.range p hp).ofChars_eq]
    rfl

def operands : Criterion → List Value
  | single _ reference => [reference]
  | range lower upper => [lower.value, upper.value]

theorem absent_mem_operands_iff {text : List Char} :
    .absent ∈ (ofChars text).operands ↔ ∀ c ∈ text, Text.isBlank c = true := by
  rw [← Text.trim_eq_nil_iff]
  constructor
  · intro h
    have present (cs : List Char) : Value.absent ≠ Value.ofChars cs :=
      (Value.infer_ne_absent _).symm
    have hm := ofChars_means text
    generalize ofChars text = c at h hm
    cases hm with
    | blank hblank => exact hblank
    | range | operator | negation | bare => simp [operands, RangeText.criterion, present] at h
  · intro h
    rw [(Means.blank h).ofChars_eq]
    simp [operands]

/-- Parsing follows the grammar. A text is a range exactly if it can be cut into the parts of one,
which it can in one way at most; whatever the text, what is parsed is what it means; a text that
begins with a symbol or an exclamation mark is no range; and only blank texts give an absent
value. -/
theorem parse_follows_grammar (e : String) :
    ((parse e).isRange = true ↔ ∃ p : RangeText, p.Spells (Text.trim e.toList)) ∧
    (∀ p q : RangeText, p.Spells (Text.trim e.toList) → q.Spells (Text.trim e.toList) → p = q) ∧
    (∀ c, parse e = c ↔ Means (Text.trim e.toList) c) ∧
    ((∃ op : Operator, op.symbol <+: Text.trim e.toList) ∨ (Text.trim e.toList).head? = some '!' →
      (parse e).isRange = false) ∧
    (.absent ∈ (parse e).operands ↔ ∀ c ∈ e.toList, Text.isBlank c = true) := by
  refine ⟨isRange_iff, fun _ _ => RangeText.Spells.unique, fun _ => ofChars_eq_iff, ?_,
    absent_mem_operands_iff⟩
  intro h
  rw [Bool.eq_false_iff, ne_eq, parse, isRange_iff]
  rintro ⟨p, hp⟩
  rcases h with ⟨op, rest, hop⟩ | h
  · rw [← hop] at hp
    exact RangeText.not_spells_symbol_append op rest hp
  · obtain ⟨rest, hrest⟩ := List.head?_eq_some_iff.mp h
    rw [hrest] at hp
    exact RangeText.not_spells_of_head rfl (Text.isBlank_of_visible (by decide)) hp

end Criterion
end Criteria
