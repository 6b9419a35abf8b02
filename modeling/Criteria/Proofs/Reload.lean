import Criteria.Criterion.Accepts
import Criteria.Criterion.Json
import Criteria.Proofs.JsonCodec
import Criteria.Proofs.SingleLaws

/-!
# Storing a criterion and reading it again

A criterion is stored as its expression in a JSON string. Reading that back keeps every verdict of a
parsed criterion, with two exceptions: the criterion of a blank text, and a strict sign that was
kept apart from an equals sign and a number by blanks.
-/

namespace Criteria
set_option autoImplicit false

theorem Text.isBlank_equals_sign : isBlank '=' = false := isBlank_of_visible (by decide)

namespace Value

theorem spellsItself_ofChars (cs : List Char) : (ofChars cs).SpellsItself := by
  have h := ofChars_trim cs
  rcases infer_cases (Text.trim cs) with ⟨n, hi⟩ | ⟨x, hi, hx⟩ | ⟨b, hi⟩ | hi <;>
    rw [ofChars, hi]
  · trivial
  · exact hx
  · trivial
  · rw [SpellsItself, parse, String.toList_ofList, h, ofChars, hi]

theorem eq_trim_of_ofChars_text {cs : List Char} {s : String} (h : ofChars cs = text s) :
    s = String.ofList (Text.trim cs) := by
  rcases infer_cases (Text.trim cs) with ⟨n, hi⟩ | ⟨x, hi, _⟩ | ⟨b, hi⟩ | hi <;>
    rw [ofChars, hi] at h <;> simp at h
  exact h.symm

/-- Whatever is behind an equals sign, the two are a text. -/
theorem ofChars_equals_sign (cs : List Char) :
    ofChars ('=' :: cs) = text (String.ofList ('=' :: Text.trimEnd cs)) := by
  have htrim : Text.trim ('=' :: cs) = '=' :: Text.trimEnd cs :=
    Text.trim_append_cons [] Text.isBlank_equals_sign cs
  rw [ofChars, htrim]
  rfl

theorem satisfies_widened_self {op : Operator} (hop : op = .less ∨ op = .greater) {v : Value}
    (hv : v.isFiniteNumber = true) : v.satisfies op.widened v = true := by
  cases v with
  | absent | boolean | text => simp [isFiniteNumber] at hv
  | integer n => rcases hop with rfl | rfl <;> simp [satisfies, Operator.widened, Operator.holdsInt]
  | float x =>
    cases x with
    | nan | infinite => simp [isFiniteNumber, Binary.isFinite] at hv
    | finite s r =>
      rcases hop with rfl | rfl <;> cases s <;>
        simp [satisfies, Operator.widened, Operator.holdsFloat, toSingle, Binary.le,
          Binary.position?]

end Value

namespace Criterion
open Operator

theorem ofJson?_toJson (c : Criterion) : ofJson? c.toJson = some (ofChars c.exact) := by
  rw [ofJson?, toJson, String.toList_ofList, ofJsonChars?, jsonChars, toScalar, Json.isCodec.text,
    Option.bind_some]
  simp [ofScalar?, Json.Scalar.text?, parse, expression]

@[simp] theorem ofChars_trim (text : List Char) : ofChars (Text.trim text) = ofChars text := by
  rw [ofChars, Text.trim_trim, ofChars]

/-- A strict sign, blanks, an equals sign and a number. The stored expression has no blanks. -/
def SplitSign (cs : List Char) : Prop :=
  ∃ op blanks number, (op = Operator.less ∨ op = .greater) ∧ blanks ≠ [] ∧
    (∀ c ∈ blanks, Text.isBlank c = true) ∧ IsNumberText number ∧
    cs = op.symbol ++ (blanks ++ '=' :: number)

theorem lossless_single_ofChars {op : Operator} {cs : List Char}
    (h : op.fuses (Value.ofChars cs).exact = false) : (single op (.ofChars cs)).Lossless :=
  lossless_single_iff.mpr ⟨Value.spellsItself_ofChars cs, h⟩

theorem ofChars_of_fuses {op : Operator} {cs : List Char}
    (h : op.fuses (Value.ofChars cs).exact = true) :
    (op = .less ∨ op = .greater) ∧ ∃ r, Text.trim cs = '=' :: r ∧
      (Value.ofChars cs).exact = '=' :: r := by
  obtain ⟨hop, r, hr⟩ := of_fuses h
  refine ⟨hop, r, ?_, hr⟩
  obtain ⟨s, hs⟩ := fuses_exact h
  rw [hs, Value.eq_trim_of_ofChars_text hs] at hr
  simpa [Value.exact, Value.shown] using hr

theorem ofChars_splitSign {op : Operator} {blanks : List Char} (ne : blanks ≠ [])
    (hb : ∀ c ∈ blanks, Text.isBlank c = true) (number : List Char) :
    ofChars (op.symbol ++ (blanks ++ '=' :: number)) =
      single op (.text (String.ofList ('=' :: Text.trimEnd number))) := by
  obtain ⟨b, r, rfl⟩ := List.exists_cons_of_ne_nil ne
  have hf : op.fuses (b :: r ++ '=' :: number) = false := by
    have hne : b ≠ '=' := by
      rintro rfl
      exact Bool.eq_false_iff.mp Text.isBlank_equals_sign (hb '=' List.mem_cons_self)
    simp [fuses, hne]
  rw [ofChars_symbol_append hf, Value.ofChars_congr (Text.trim_blank_append hb _),
    Value.ofChars_equals_sign]

/-- A parsed criterion that is not lossless comes from a blank text or from a strict sign whose text
keeps an equals sign. -/
theorem lossless_or_strict (text : List Char) : (ofChars text).Lossless ∨
    Text.trim text = [] ∨
    ∃ op rest r, (op = Operator.less ∨ op = .greater) ∧
      Text.trim text = op.symbol ++ rest ∧ op.fuses rest = false ∧ Text.trim rest = '=' :: r ∧
      ofChars text = single op (.ofChars rest) ∧ (Value.ofChars rest).exact = '=' :: r := by
  have hm := ofChars_means text
  generalize hd : ofChars text = c at hm
  cases hm with
  | blank h => exact .inr (.inl h)
  | range p h =>
    exact .inl ⟨Value.isFiniteNumber_of_isNumber h.lowerNumber,
      Value.isFiniteNumber_of_isNumber h.upperNumber⟩
  | operator op rest noRange h longest =>
    cases hf : op.fuses (Value.ofChars rest).exact with
    | false => exact .inl (lossless_single_ofChars hf)
    | true =>
      obtain ⟨hop, r, htrim, hexact⟩ := ofChars_of_fuses hf
      exact .inr (.inr ⟨op, rest, r, hop, h, not_fuses_of_longest h longest, htrim, rfl, hexact⟩)
  | negation rest => exact .inl (lossless_single_ofChars rfl)
  | bare => exact .inl (lossless_single_ofChars rfl)

theorem splitSign_of_parts {op : Operator} {cs rest r : List Char}
    (hop : op = .less ∨ op = .greater) (hcs : cs = op.symbol ++ rest)
    (hf : op.fuses rest = false) (hrest : Text.trim rest = '=' :: r) (hr : IsNumberText r) :
    SplitSign cs := by
  obtain ⟨a, b, ha, hb, e⟩ := Text.exists_trim rest
  rw [hrest] at e
  have ne : a ≠ [] := by
    rintro rfl
    have hhead : rest.head? = some '=' := by rw [e]; rfl
    exact Bool.eq_false_iff.mp hf (fuses_eq_true_iff.mpr ⟨hop, hhead⟩)
  have hnumber := (isNumberText_congr (Text.trim_append_blank r hb)).mpr hr
  refine ⟨op, a, r ++ b, hop, ne, ha, hnumber, ?_⟩
  rw [hcs, e]
  simp only [List.cons_append, List.append_assoc]

/-- What is read back from the stored form of a parsed criterion gives the same verdicts. -/
def KeepsVerdicts (text : List Char) : Prop :=
  ∀ v, (ofChars (ofChars text).exact).accepts v = (ofChars text).accepts v

theorem keepsVerdicts_of_lossless {text : List Char} (h : (ofChars text).Lossless) :
    KeepsVerdicts text := by
  intro v
  rw [ofChars_exact h]

theorem not_keepsVerdicts_of_blank {text : List Char} (h : Text.trim text = []) :
    ¬ KeepsVerdicts text := by
  intro hk
  have hc : ofChars text = single .equal .absent := (Means.blank h).ofChars_eq
  have hv := hk (.text "(none)")
  rw [hc] at hv
  exact absurd hv (by decide)

theorem order_not_isEquality {op : Operator} (h : op = .less ∨ op = .greater) :
    op.isEquality = false ∧ op.widened.isEquality = false := by
  rcases h with rfl | rfl <;> exact ⟨rfl, rfl⟩

theorem not_keepsVerdicts_of_splitSign {text : List Char} (h : SplitSign (Text.trim text)) :
    ¬ KeepsVerdicts text := by
  obtain ⟨op, blanks, number, hop, ne, hb, hn, htext⟩ := h
  intro hk
  have hv := hk (.ofChars number)
  rw [← ofChars_trim text, htext, ofChars_splitSign ne hb] at hv
  have hexact : (single op (.text (String.ofList ('=' :: Text.trimEnd number)))).exact =
      op.symbol ++ '=' :: Text.trimEnd number := by
    simp [exact, charsBy, Value.exact, Value.shown]
  rw [hexact, ofChars_fused hop, Value.ofChars_trimEnd] at hv
  -- The number itself is in the wide order with itself, and in no order with a text.
  have hwide := Value.satisfies_widened_self hop (Value.isFiniteNumber_of_isNumber hn)
  rw [accepts, accepts, hwide,
    Value.satisfies_of_not_isNumber (order_not_isEquality hop).1 rfl] at hv
  exact Bool.false_ne_true hv.symm

/-- Where no number follows the equals sign, the strict sign and the wide one refuse everything. -/
theorem keepsVerdicts_of_not_numberText {text rest r : List Char} {op : Operator}
    (hop : op = .less ∨ op = .greater) (hc : ofChars text = single op (.ofChars rest))
    (hexact : (Value.ofChars rest).exact = '=' :: r) (hn : ¬ IsNumberText r) :
    KeepsVerdicts text := by
  have hnumber : (Value.ofChars r).isNumber = false := Bool.eq_false_iff.mpr hn
  have htextual : (Value.ofChars rest).isNumber = false := by
    obtain ⟨s, hs⟩ := fuses_exact (fuses_eq_true_iff.mpr ⟨hop, by rw [hexact]; rfl⟩)
    rw [hs]
    rfl
  have hstored : (single op (Value.ofChars rest)).exact = op.symbol ++ '=' :: r := by
    rw [exact, charsBy, hexact]
  obtain ⟨hstrict, hwide⟩ := order_not_isEquality hop
  intro v
  rw [hc, hstored, ofChars_fused hop, accepts, accepts,
    Value.satisfies_of_not_isNumber hstrict htextual, Value.satisfies_of_not_isNumber hwide hnumber]

theorem keepsVerdicts_iff (text : List Char) :
    KeepsVerdicts text ↔ ¬ (Text.trim text = [] ∨ SplitSign (Text.trim text)) := by
  constructor
  · rintro hk (h | h)
    · exact not_keepsVerdicts_of_blank h hk
    · exact not_keepsVerdicts_of_splitSign h hk
  · intro h
    rw [not_or] at h
    rcases lossless_or_strict text with hl | hb | ⟨op, rest, r, hop, htext, hf, htrim, hc, hexact⟩
    · exact keepsVerdicts_of_lossless hl
    · exact absurd hb h.1
    · apply keepsVerdicts_of_not_numberText hop hc hexact
      intro hn
      exact h.2 (splitSign_of_parts hop htext hf htrim hn)

/-- Storing the criterion of a text and reading it again always succeeds, and it keeps the verdict
on every input exactly if the text is neither blank nor a split sign. -/
theorem reload_keeps_verdicts_iff (e : String) :
    ∃ c, ofJson? (parse e).toJson = some c ∧
      ((∀ v, c.accepts v = (parse e).accepts v) ↔
        ¬ ((∀ ch ∈ e.toList, Text.isBlank ch = true) ∨ SplitSign (Text.trim e.toList))) := by
  refine ⟨_, ofJson?_toJson _, ?_⟩
  rw [← Text.trim_eq_nil_iff]
  exact keepsVerdicts_iff e.toList

/-- No integer is below the text `=5`, but 3 is at most 5. -/
theorem reload_of_split_sign :
    (parse "< =5").accepts (.integer 3) = false ∧
    (ofJson? (parse "< =5").toJson).map (·.accepts (.integer 3)) = some true := by
  decide

end Criterion
end Criteria
