import Criteria.Proofs.Grammar

/-!
# Which criteria survive being written and read again

The stored expression puts an operator right against its value. It is read as the same criterion
unless a strict sign meets a text that starts with an equals sign, or the value is one that no text
spells.
-/

namespace Criteria
set_option autoImplicit false

namespace Binary

theorem isFinite_of_isClose {a b : Single} (h : a.isClose b = true) :
    a.isFinite = true ∧ b.isFinite = true := by
  have hnan : (nan : Single).lt tolerance = false := by decide
  have hinf : (infinite false : Single).lt tolerance = false := by decide
  cases a with
  | nan => exact absurd h (by simp [isClose, distance, hnan])
  | infinite s =>
    cases b with
    | nan => exact absurd h (by simp [isClose, distance, hnan])
    | infinite t => exact absurd h (by cases s <;> cases t <;> decide)
    | finite => exact absurd h (by simp [isClose, distance, hinf])
  | finite =>
    cases b with
    | nan => exact absurd h (by simp [isClose, distance, hnan])
    | infinite => exact absurd h (by simp [isClose, distance, hinf])
    | finite => exact ⟨rfl, rfl⟩

theorem isClose_self {a : Single} (h : a.isFinite = true) : a.isClose a = true := by
  obtain ⟨s, r, rfl⟩ := exists_of_isFinite h
  have hz : Format.single.nearestRank 0 1 = 0 := by
    simpa using Format.single.nearestRank_units 0 Nat.one_pos
  simp only [isClose, distance, Int.sub_self, Int.natAbs_zero, ofUnits, hz]
  decide

end Binary

namespace Value

/-- The numbers that a text can spell. -/
def isFiniteNumber : Value → Bool
  | integer _ => true
  | float x => x.isFinite
  | _ => false

/-- The values that their exact text spells. -/
def SpellsItself : Value → Prop
  | integer _ | boolean _ => True
  | float x => x.isFinite = true
  | text s => parse s = text s
  | absent => False

theorem ofChars_exact {v : Value} (h : v.SpellsItself) : ofChars v.exact = v := by
  cases v with
  | absent => exact h.elim
  | integer n => exact ofChars_integer n
  | float x => exact ofChars_float h
  | boolean b => exact ofChars_boolean b
  | text s => exact h

theorem ofChars_exact_infinite (x : Single) (h : x.isFinite = false) :
    ∃ s, ofChars (float x).exact = text s := by
  cases x with
  | nan => exact ⟨"NaN", by decide⟩
  | infinite s =>
    cases s with
    | false => exact ⟨"inf", by decide⟩
    | true => exact ⟨"-inf", by decide⟩
  | finite => simp [Binary.isFinite] at h

theorem eq_of_agrees_text {v : Value} {s : String} (h : v.agrees (text s) = true) : v = text s := by
  cases v with
  | text t => exact congrArg text (by simpa [agrees] using h)
  | absent | integer | float | boolean => simp [agrees] at h

theorem not_agrees_exact {v : Value} (h : ¬ v.SpellsItself) :
    (ofChars v.exact).agrees v = false := by
  cases v with
  | integer | boolean => exact absurd trivial h
  | absent => cases ofChars (absent).exact <;> rfl
  | float x =>
    obtain ⟨s, hs⟩ := ofChars_exact_infinite x (by simpa [SpellsItself] using h)
    rw [hs]
    rfl
  | text s =>
    rw [Bool.eq_false_iff]
    exact fun ha => h (eq_of_agrees_text ha)

theorem isFiniteNumber_of_agrees {v w : Value} (hv : v.isFiniteNumber = true)
    (h : v.agrees w = true) : w.isFiniteNumber = true := by
  cases v with
  | absent | boolean | text => simp [isFiniteNumber] at hv
  | integer n =>
    cases w with
    | integer => rfl
    | absent | float | boolean | text => simp [agrees] at h
  | float x =>
    cases w with
    | float y => exact (Binary.isFinite_of_isClose h).2
    | absent | integer | boolean | text => simp [agrees] at h

theorem isFiniteNumber_of_isNumber {cs : List Char} (h : (ofChars cs).isNumber = true) :
    (ofChars cs).isFiniteNumber = true := by
  rcases infer_cases (Text.trim cs) with ⟨n, hi⟩ | ⟨x, hi, hx⟩ | ⟨b, hi⟩ | hi <;>
    simp_all [ofChars, isFiniteNumber, isNumber, kind]

theorem isNumber_of_isFiniteNumber {v : Value} (h : v.isFiniteNumber = true) :
    v.isNumber = true := by
  cases v with
  | integer | float => rfl
  | absent | boolean | text => simp [isFiniteNumber] at h

theorem SpellsItself.of_isFiniteNumber {v : Value} (h : v.isFiniteNumber = true) :
    v.SpellsItself := by
  cases v with
  | integer => trivial
  | float => exact h
  | absent | boolean | text => simp [isFiniteNumber] at h

theorem agrees_self_ofChars (cs : List Char) : (ofChars cs).agrees (ofChars cs) = true := by
  unfold ofChars
  rcases infer_cases (Text.trim cs) with ⟨n, h⟩ | ⟨x, h, hx⟩ | ⟨b, h⟩ | h <;> rw [h]
  · simp [agrees]
  · exact Binary.isClose_self hx
  · simp [agrees]
  · simp [agrees]

theorem exact_numeral {v : Value} (h : v.isFiniteNumber = true) : ∀ c ∈ v.exact, isNumeral c := by
  cases v with
  | integer n => exact (Literal.ofInt_wellFormed n.toInt).chars_numeral
  | float x =>
    cases x with
    | finite s r =>
      exact (Layout.literal_wellFormed .expression (by decide) s r.isLt).chars_numeral
    | nan | infinite => simp [isFiniteNumber, Binary.isFinite] at h
  | absent | boolean | text => simp [isFiniteNumber] at h

end Value

namespace Criterion
open Operator

theorem isNumberText_exact {v : Value} (h : v.isFiniteNumber = true) : IsNumberText v.exact := by
  rw [IsNumberText, Value.ofChars_exact (.of_isFiniteNumber h)]
  exact Value.isNumber_of_isFiniteNumber h

/-- An operator in front of a text is read as it stands, unless it fuses with the text. -/
theorem ofChars_symbol_append {op : Operator} {cs : List Char} (h : op.fuses cs = false) :
    ofChars (op.symbol ++ cs) = single op (.ofChars cs) := by
  obtain ⟨b, _, hb⟩ := Text.trimEnd_prefix cs
  have hf : op.fuses (Text.trimEnd cs) = false := by
    cases hf : op.fuses (Text.trimEnd cs) with
    | false => rfl
    | true =>
      obtain ⟨hop, r, hr⟩ := of_fuses hf
      rw [hb, hr] at h
      rcases hop with rfl | rfl <;> simp [fuses] at h
  have htrim : Text.trim (op.symbol ++ cs) = op.symbol ++ Text.trimEnd cs :=
    Text.trim_plain_append (symbol_ne_nil op) (fun c hc => (symbol_plain op c hc).2.1) cs
  apply Means.ofChars_eq
  rw [htrim, ← Value.ofChars_trimEnd cs]
  exact .operator op _ (fun p => RangeText.not_spells_symbol_append op _) rfl
    (leading?_longest (leading?_append hf))

theorem ofChars_fused {op : Operator} (h : op = .less ∨ op = .greater) (cs : List Char) :
    ofChars (op.symbol ++ '=' :: cs) = single op.widened (.ofChars cs) := by
  rw [symbol_widened h]
  exact ofChars_symbol_append (widened_fuses op cs)

theorem fuses_exact {op : Operator} {v : Value} (h : op.fuses v.exact = true) :
    ∃ s, v = .text s := by
  cases v with
  | text s => exact ⟨s, rfl⟩
  | absent => cases op <;> simp [fuses, Value.exact, Value.shown] at h
  | boolean b =>
    cases op <;> cases b <;> simp [fuses, Value.exact, Value.shown, Value.boolChars] at h
  | integer n => exact absurd h (Bool.eq_false_iff.mp ((isNumberText_exact rfl).fuses op))
  | float x =>
    cases x with
    | finite s r => exact absurd h (Bool.eq_false_iff.mp ((isNumberText_exact rfl).fuses op))
    | nan => cases op <;> simp [fuses, Value.exact, Binary.exact] at h
    | infinite s =>
      cases op <;> cases s <;> simp [fuses, Value.exact, Binary.exact, Binary.signChars] at h

/-- The criteria whose stored expression is read as the same criterion. -/
def Lossless : Criterion → Prop
  | single _ (.integer _) | single _ (.boolean _) => True
  | single _ (.float x) => x.isFinite = true
  | single op (.text s) =>
    Value.parse s = .text s ∧ ¬ ((op = .less ∨ op = .greater) ∧ s.toList.head? = some '=')
  | single _ .absent => False
  | range lower upper => lower.value.isFiniteNumber = true ∧ upper.value.isFiniteNumber = true

theorem fuses_eq_true_iff {op : Operator} {cs : List Char} :
    op.fuses cs = true ↔ (op = .less ∨ op = .greater) ∧ cs.head? = some '=' := by
  simp [fuses]

theorem lossless_single_iff {op : Operator} {v : Value} :
    (single op v).Lossless ↔ v.SpellsItself ∧ op.fuses v.exact = false := by
  have hplain (h : ∀ s, v ≠ .text s) : op.fuses v.exact = false := by
    cases hf : op.fuses v.exact with
    | false => rfl
    | true =>
      obtain ⟨s, hs⟩ := fuses_exact hf
      exact absurd hs (h s)
  cases v with
  | text s => simp [Lossless, Value.SpellsItself, Value.exact, Value.shown, fuses]
  | absent | integer | float | boolean =>
    simp [Lossless, Value.SpellsItself, hplain (by simp)]

theorem ofChars_exact_single {op : Operator} {v : Value} (h : (single op v).Lossless) :
    ofChars (single op v).exact = single op v := by
  obtain ⟨hv, hf⟩ := lossless_single_iff.mp h
  change ofChars (op.symbol ++ v.exact) = single op v
  rw [ofChars_symbol_append hf, Value.ofChars_exact hv]

theorem not_agrees_single {op : Operator} {v : Value} (h : ¬ (single op v).Lossless) :
    (ofChars (single op v).exact).agrees (single op v) = false := by
  change (ofChars (op.symbol ++ v.exact)).agrees (single op v) = false
  cases hf : op.fuses v.exact with
  | true =>
    obtain ⟨hop, r, hr⟩ := of_fuses hf
    rw [hr, ofChars_fused hop]
    simp [agrees, widened_ne hop]
  | false =>
    have hv : ¬ v.SpellsItself := fun hv => h (lossless_single_iff.mpr ⟨hv, hf⟩)
    rw [ofChars_symbol_append hf]
    simp [agrees, Value.not_agrees_exact hv]

/-- A range whose bounds are rendered as numerals is read as the range of what they spell. -/
theorem ofChars_charsBy_range {render : Value → List Char} {lower upper : Bound}
    (hlower : IsNumberText (render lower.value)) (hupper : IsNumberText (render upper.value))
    (hl : ∀ c ∈ render lower.value, isNumeral c) (hu : ∀ c ∈ render upper.value, isNumeral c) :
    ofChars ((range lower upper).charsBy render) =
      range ⟨lower.op, .ofChars (render lower.value)⟩
        ⟨upper.op, .ofChars (render upper.value)⟩ := by
  have h := ofChars_range_numerals lower.op.converse upper.op hlower hupper hl hu
  rw [converse_converse] at h
  simpa [charsBy] using h

theorem ofChars_exact_range {lower upper : Bound} (h : (range lower upper).Lossless) :
    ofChars (range lower upper).exact = range lower upper := by
  rw [exact, ofChars_charsBy_range (isNumberText_exact h.1) (isNumberText_exact h.2)
    (Value.exact_numeral h.1) (Value.exact_numeral h.2),
    Value.ofChars_exact (.of_isFiniteNumber h.1), Value.ofChars_exact (.of_isFiniteNumber h.2)]

theorem not_agrees_range {lower upper : Bound} (h : ¬ (range lower upper).Lossless) :
    (ofChars (range lower upper).exact).agrees (range lower upper) = false := by
  have hm := ofChars_means (range lower upper).exact
  generalize ofChars (range lower upper).exact = c at hm
  cases hm with
  | blank | operator | negation | bare => rfl
  | range p hp =>
    rw [Bool.eq_false_iff]
    intro ha
    simp only [RangeText.criterion, agrees, Bound.agrees, Bool.and_eq_true] at ha
    obtain ⟨⟨_, hl⟩, _, hu⟩ := ha
    exact h ⟨Value.isFiniteNumber_of_agrees (Value.isFiniteNumber_of_isNumber hp.lowerNumber) hl,
      Value.isFiniteNumber_of_agrees (Value.isFiniteNumber_of_isNumber hp.upperNumber) hu⟩

theorem ofChars_exact {c : Criterion} (h : c.Lossless) : ofChars c.exact = c := by
  cases c with
  | single => exact ofChars_exact_single h
  | range => exact ofChars_exact_range h

theorem not_agrees_exact {c : Criterion} (h : ¬ c.Lossless) :
    (ofChars c.exact).agrees c = false := by
  cases c with
  | single => exact not_agrees_single h
  | range => exact not_agrees_range h

theorem agrees_self_ofChars {cs : List Char} (h : Text.trim cs ≠ []) :
    (ofChars cs).agrees (ofChars cs) = true := by
  have hm := ofChars_means cs
  generalize ofChars cs = c at hm
  cases hm with
  | blank hb => exact absurd hb h
  | range | operator | negation | bare =>
    simp [RangeText.criterion, agrees, Bound.agrees, Value.agrees_self_ofChars]

theorem trim_exact_ne_nil (c : Criterion) : Text.trim c.exact ≠ [] := by
  rw [ne_eq, Text.trim_eq_nil_iff]
  intro h
  cases c with
  | single op v =>
    obtain ⟨d, r, hd⟩ := List.exists_cons_of_ne_nil (symbol_ne_nil op)
    have hplain := (symbol_plain op d (by simp [hd])).2.1
    have hblank := h d (by simp [exact, charsBy, hd])
    exact Bool.eq_false_iff.mp hplain hblank
  | range lower upper =>
    have hplain : Text.isBlank 'x' = false := Text.isBlank_of_visible (by decide)
    have hblank := h 'x' (by simp [exact, charsBy])
    exact Bool.eq_false_iff.mp hplain hblank

/-- A criterion is read back from its stored expression unchanged, bit for bit, exactly if it is
lossless; otherwise what is read back does not even agree with it. -/
theorem parse_expression_eq_iff_lossless (c : Criterion) :
    (parse c.expression = c ↔ c.Lossless) ∧
    (¬ c.Lossless → (parse c.expression).agrees c = false) := by
  have hparse : parse c.expression = ofChars c.exact := by
    rw [parse, expression, String.toList_ofList]
  rw [hparse]
  refine ⟨⟨?_, ofChars_exact⟩, not_agrees_exact⟩
  intro h
  by_contra hn
  have hself := agrees_self_ofChars (trim_exact_ne_nil c)
  have hnot := not_agrees_exact hn
  rw [h] at hself hnot
  exact Bool.eq_false_iff.mp hnot hself

end Criterion
end Criteria
