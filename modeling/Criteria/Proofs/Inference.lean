import Criteria.Proofs.ExactDigits
import Criteria.Value.Text

/-!
# What a text spells

The value inferred from a text, case by case, and the characters a number text is made of. The exact
text of an integer, a truth value or a finite float spells the same value again, bit for bit.
-/

namespace Criteria
set_option autoImplicit false

/-- The characters that occur in literals. -/
def isNumeral (c : Char) : Bool :=
  c.isDigit || c == '+' || c == '-' || c == '.' || c == 'e' || c == 'E'

theorem isNumeral_of_isDigit {c : Char} (h : c.isDigit) : isNumeral c := by
  simp [isNumeral, h]

theorem isNumeral_not_blank {c : Char} (h : isNumeral c) : Text.isBlank c = false := by
  simp only [isNumeral, Bool.or_eq_true, beq_iff_eq, or_assoc] at h
  rcases h with h | rfl | rfl | rfl | rfl | rfl
  · obtain ⟨lo, hi⟩ := Char.isDigit_iff_toNat.mp h
    exact Text.isBlank_of_visible
      ⟨Nat.lt_of_lt_of_le (by decide) lo, Nat.lt_of_le_of_lt hi (by decide)⟩
  all_goals exact Text.isBlank_of_visible (by decide)

namespace Sign

theorem chars_numeral (s : Option Sign) : ∀ c ∈ chars s, isNumeral c := by
  rcases s with _ | _ | _ <;> simp [chars, char, isNumeral]

end Sign

namespace Literal

theorem digits_numeral {ds : List Char} (h : ds.all Char.isDigit) : ∀ c ∈ ds, isNumeral c := by
  intro c hc
  exact isNumeral_of_isDigit (List.all_eq_true.mp h c hc)

theorem fractionChars_numeral {fraction : Option (List Char)}
    (h : (fraction.getD []).all Char.isDigit) : ∀ c ∈ fractionChars fraction, isNumeral c := by
  cases fraction with
  | none => simp [fractionChars]
  | some ds =>
    intro c hc
    rcases List.mem_cons.mp hc with rfl | hc
    · decide
    · exact digits_numeral h c hc

theorem exponentChars_numeral {exponent : Option Exponent} (h : ∀ e ∈ exponent, e.WellFormed) :
    ∀ c ∈ exponentChars exponent, isNumeral c := by
  cases exponent with
  | none => simp [exponentChars]
  | some e =>
    intro c hc
    obtain ⟨hm, _, hd⟩ := h e rfl
    simp only [exponentChars, Exponent.chars, List.cons_append, List.mem_cons,
      List.mem_append] at hc
    rcases hc with rfl | hc | hc
    · simp only [Exponent.isMark, Bool.or_eq_true, beq_iff_eq] at hm
      rcases hm with hm | hm <;> rw [hm] <;> decide
    · exact Sign.chars_numeral _ c hc
    · exact digits_numeral hd c hc

theorem WellFormed.chars_numeral {l : Literal} (h : l.WellFormed) : ∀ c ∈ l.chars, isNumeral c := by
  intro c hc
  simp only [chars, List.mem_append, or_assoc] at hc
  rcases hc with hc | hc | hc | hc
  · exact Sign.chars_numeral _ c hc
  · exact digits_numeral h.whole c hc
  · exact fractionChars_numeral h.fraction c hc
  · exact exponentChars_numeral h.exponent c hc

theorem WellFormed.chars_ne_nil {l : Literal} (h : l.WellFormed) : l.chars ≠ [] := by
  intro hnil
  simp only [chars, List.append_eq_nil_iff] at hnil
  obtain ⟨⟨⟨_, hw⟩, hf⟩, _⟩ := hnil
  rcases h.nonempty with h | h
  · exact h hw
  · cases hl : l.fraction with
    | none => simp [hl] at h
    | some ds => simp [hl, fractionChars] at hf

theorem WellFormed.trim_chars {l : Literal} (h : l.WellFormed) : Text.trim l.chars = l.chars := by
  apply Text.trim_plain
  intro c hc
  exact isNumeral_not_blank (h.chars_numeral c hc)

end Literal

theorem Binary.exists_of_isFinite {f : Format} {x : Binary f} (h : x.isFinite = true) :
    ∃ s r, x = .finite s r := by
  cases x with
  | nan | infinite => simp [isFinite] at h
  | finite s r => exact ⟨s, r, rfl⟩

namespace Value

/-- What inference can give: it never invents an absent value or a float that is no number, and a
text is kept as it stands. -/
theorem infer_cases (cs : List Char) :
    (∃ n, infer cs = integer n) ∨ (∃ x, infer cs = float x ∧ x.isFinite = true) ∨
      (∃ b, infer cs = boolean b) ∨ infer cs = text (String.ofList cs) := by
  unfold infer
  split
  · split
    · next n _ => exact .inl ⟨n, rfl⟩
    · next l _ x _ hx =>
      refine .inr (.inl ⟨x, rfl, ?_⟩)
      simp only [Literal.single?] at hx
      split at hx
      · next hfin => rwa [← Option.some.inj hx]
      · simp at hx
    · exact .inr (.inr (.inr rfl))
  · split
    · exact .inr (.inr (.inl ⟨true, rfl⟩))
    split
    · exact .inr (.inr (.inl ⟨false, rfl⟩))
    · exact .inr (.inr (.inr rfl))

theorem infer_ne_absent (cs : List Char) : infer cs ≠ absent := by
  rcases infer_cases cs with ⟨n, h⟩ | ⟨x, h, _⟩ | ⟨b, h⟩ | h <;> rw [h] <;> simp

theorem exists_literal_of_isNumber {cs : List Char} (h : (infer cs).isNumber = true) :
    ∃ l : Literal, l.WellFormed ∧ l.chars = cs := by
  cases hl : Literal.scan? cs with
  | some l => exact ⟨l, Literal.of_scan? hl⟩
  | none =>
    simp only [infer, hl] at h
    split at h
    · simp [isNumber, kind] at h
    split at h <;> simp [isNumber, kind] at h

theorem infer_literal_integer {l : Literal} (h : l.WellFormed) {n : Int32}
    (hn : l.int32? = some n) : infer l.chars = integer n := by
  simp only [infer, Literal.scan?_chars h, hn]

theorem infer_literal_float {l : Literal} (h : l.WellFormed) (hn : l.int32? = none) {x : Single}
    (hx : l.single? = some x) : infer l.chars = float x := by
  simp only [infer, Literal.scan?_chars h, hn, hx]

theorem ofChars_literal {l : Literal} (h : l.WellFormed) : ofChars l.chars = infer l.chars := by
  rw [ofChars, h.trim_chars]

theorem ofChars_congr {a b : List Char} (h : Text.trim a = Text.trim b) :
    ofChars a = ofChars b := by
  rw [ofChars, ofChars, h]

@[simp] theorem ofChars_trim (cs : List Char) : ofChars (Text.trim cs) = ofChars cs := by
  rw [ofChars, Text.trim_trim, ofChars]

theorem ofChars_trimEnd (cs : List Char) : ofChars (Text.trimEnd cs) = ofChars cs := by
  rw [ofChars, Text.trim_trimEnd, ofChars]

theorem numberText_chars {cs : List Char} (h : (ofChars cs).isNumber = true) :
    (∀ c ∈ cs, isNumeral c ∨ Text.isBlank c) ∧ cs ≠ [] := by
  obtain ⟨l, hl, hc⟩ := exists_literal_of_isNumber h
  obtain ⟨a, b, ha, hb, e⟩ := Text.exists_trim cs
  rw [e, ← hc]
  refine ⟨?_, ?_⟩
  · intro c hc
    simp only [List.mem_append, or_assoc] at hc
    rcases hc with hc | hc | hc
    · exact .inr (ha c hc)
    · exact .inl (hl.chars_numeral c hc)
    · exact .inr (hb c hc)
  · simp [hl.chars_ne_nil]

theorem ofChars_integer (n : Int32) : ofChars (integer n).exact = integer n := by
  have h := Literal.ofInt_wellFormed n.toInt
  change ofChars (Literal.ofInt n.toInt).chars = integer n
  rw [ofChars_literal h]
  exact infer_literal_integer h (by simp [Literal.int32?])

theorem ofChars_boolean (b : Bool) : ofChars (boolean b).exact = boolean b := by
  cases b <;> decide

/-- A finite float is read back from its exact text, also a zero with its sign. -/
theorem ofChars_float {x : Single} (hx : x.isFinite = true) :
    ofChars (float x).exact = float x := by
  obtain ⟨s, r, rfl⟩ := Binary.exists_of_isFinite hx
  have hf : 0 < Format.single.fractionBits := by decide
  have h := Layout.literal_wellFormed .expression hf s r.isLt
  change ofChars (Layout.expression.literal .single s r).chars = float (.finite s r)
  rw [ofChars_literal h]
  apply infer_literal_float h
  · rw [Literal.int32?, Layout.literal_integer? .expression hf s r.isLt, Option.bind_none]
  · rw [Literal.single?, Layout.literal_toBinary .expression hf s r.isLt, Binary.ofRank_val]
    rfl

end Value
end Criteria
