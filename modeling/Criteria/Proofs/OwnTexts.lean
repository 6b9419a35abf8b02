import Criteria.Proofs.Reload

/-!
# Every text meets its own criterion

Behind a sign of equality a text is read as what it spells alone, however it begins, and what a text
spells equals itself. An exclamation mark is short for the sign of inequality, unless there is
nothing behind it or an equals sign, which would become a part of it.
-/

namespace Criteria
set_option autoImplicit false

theorem Text.length_trim_le (cs : List Char) : (trim cs).length ≤ (trimEnd cs).length := by
  obtain ⟨a, b, _, _, h⟩ := exists_trim (trimEnd cs)
  rw [trim_trimEnd] at h
  have hlen := congrArg List.length h
  simp only [List.length_append] at hlen
  omega

namespace Value
variable {v w : Value}

theorem satisfies_notEqual_of_equal (h : v.satisfies .equal w = true) :
    v.satisfies .notEqual w = false := by
  have hopposite := satisfies_opposite .equal rfl (isComparable_of_satisfies h) (.inl rfl)
  rw [h] at hopposite
  exact hopposite

theorem satisfies_self_ofChars (cs : List Char) :
    (ofChars cs).satisfies .equal (ofChars cs) = true :=
  satisfies_equal_of_agrees (agrees_self_ofChars cs)

/-- An equals sign makes a text of what it stands in front of, and a longer one. -/
theorem ofChars_equals_sign_ne (cs : List Char) : ofChars ('=' :: cs) ≠ ofChars cs := by
  intro h
  rw [ofChars_equals_sign] at h
  have hsame := String.ofList_injective (eq_trim_of_ofChars_text h.symm)
  have hlen := congrArg List.length hsame
  have hle := Text.length_trim_le cs
  rw [List.length_cons] at hlen
  omega

end Value

namespace Criterion
open Operator

theorem accepts_self_equal (cs : List Char) :
    (ofChars (equal.symbol ++ cs)).accepts (.ofChars cs) = true := by
  rw [ofChars_symbol_append rfl]
  exact Value.satisfies_self_ofChars cs

theorem accepts_self_notEqual (cs : List Char) :
    (ofChars (notEqual.symbol ++ cs)).accepts (.ofChars cs) = false := by
  rw [ofChars_symbol_append rfl]
  exact Value.satisfies_notEqual_of_equal (Value.satisfies_self_ofChars cs)

theorem isBlank_exclamation : Text.isBlank '!' = false := Text.isBlank_of_visible (by decide)

theorem trim_exclamation (cs : List Char) : Text.trim ('!' :: cs) = '!' :: Text.trimEnd cs :=
  Text.trim_append_cons [] isBlank_exclamation cs

theorem not_spells_exclamation {p : RangeText} (cs : List Char) : ¬ p.Spells ('!' :: cs) :=
  RangeText.not_spells_of_head rfl isBlank_exclamation

theorem not_symbol_prefix_exclamation {cs : List Char} (h : cs.head? ≠ some '=') (q : Operator) :
    ¬ q.symbol <+: '!' :: cs := by
  rintro ⟨r, hr⟩
  cases q with
  | notEqual =>
    have hcs : '=' :: r = cs := (List.cons.inj hr).2
    rw [← hcs] at h
    exact h rfl
  | less | lessEqual | greater | greaterEqual | equal | quotient | remainder =>
    exact absurd (List.cons.inj hr).1 (by decide)

/-- By itself an exclamation mark is a text to be equal to. -/
theorem ofChars_exclamation_blank {cs : List Char} (h : ∀ c ∈ cs, Text.isBlank c = true) :
    ofChars ('!' :: cs) = single .equal (.text "!") := by
  apply Means.ofChars_eq
  rw [trim_exclamation, Text.trimEnd_eq_nil_iff.mpr h]
  apply Means.bare
  · intro p
    exact not_spells_exclamation []
  · exact not_symbol_prefix_exclamation nofun
  · exact List.cons_ne_nil '!' []
  · intro rest hrest
    exact (List.cons.inj hrest).2.symm

theorem ofChars_exclamation {cs : List Char} (hequals : cs.head? ≠ some '=')
    (hblank : ¬ ∀ c ∈ cs, Text.isBlank c = true) :
    ofChars ('!' :: cs) = single .notEqual (.ofChars cs) := by
  have hne : Text.trimEnd cs ≠ [] := mt Text.trimEnd_eq_nil_iff.mp hblank
  have hhead : (Text.trimEnd cs).head? = cs.head? := by
    obtain ⟨b, _, hb⟩ := Text.trimEnd_prefix cs
    calc (Text.trimEnd cs).head? = (Text.trimEnd cs ++ b).head? :=
          (List.head?_append_of_ne_nil _ hne).symm
      _ = cs.head? := by rw [← hb]
  apply Means.ofChars_eq
  rw [trim_exclamation, ← Value.ofChars_trimEnd cs]
  apply Means.negation
  · intro p
    exact not_spells_exclamation _
  · apply not_symbol_prefix_exclamation
    rwa [hhead]
  · rfl
  · exact hne

theorem ofChars_exclamation_eq_iff (cs : List Char) :
    ofChars ('!' :: cs) = ofChars (notEqual.symbol ++ cs) ↔
      cs.head? ≠ some '=' ∧ ¬ ∀ c ∈ cs, Text.isBlank c = true := by
  rw [ofChars_symbol_append rfl]
  constructor
  · intro h
    constructor
    · intro hequals
      obtain ⟨r, rfl⟩ := List.head?_eq_some_iff.mp hequals
      have hsign : ofChars (notEqual.symbol ++ r) = single .notEqual (.ofChars r) :=
        ofChars_symbol_append rfl
      injection hsign.symm.trans h with _ hvalue
      exact Value.ofChars_equals_sign_ne r hvalue.symm
    · intro hblank
      rw [ofChars_exclamation_blank hblank] at h
      injection h with hop
      exact absurd hop (by decide)
  · rintro ⟨hequals, hblank⟩
    exact ofChars_exclamation hequals hblank

/-- What a text spells meets the criterion of an equality sign and that text, and not the one of an
inequality sign and the text. An exclamation mark in its place gives the same criterion exactly if
the text does not begin with an equals sign and is not blank. -/
theorem text_meets_itself :
    (∀ t : String, (parse ("==" ++ t)).accepts (.parse t) = true ∧
      (parse ("!=" ++ t)).accepts (.parse t) = false) ∧
    ∀ t : String, parse ("!" ++ t) = parse ("!=" ++ t) ↔
      t.toList.head? ≠ some '=' ∧ ¬ ∀ c ∈ t.toList, Text.isBlank c = true := by
  simp only [parse, String.toList_append]
  constructor
  · intro t
    exact ⟨accepts_self_equal t.toList, accepts_self_notEqual t.toList⟩
  · intro t
    exact ofChars_exclamation_eq_iff t.toList

end Criterion
end Criteria
