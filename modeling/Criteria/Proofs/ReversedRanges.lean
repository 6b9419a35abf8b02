import Criteria.Criterion.Accepts
import Criteria.Proofs.Grammar

/-!
# Ranges read from either end

The left side of a range is read from its end and the right side from its start, and on both sides
blanks may stand around the number and the operator. So a range text may be turned around, its
operators with it: the bounds change places, and what the range accepts stays the same.
-/

namespace Criteria
set_option autoImplicit false

namespace Text

/-- A text that is made of the given parts, in their order, with blanks anywhere around them. -/
inductive Spaced : List (List Char) → List Char → Prop where
  | nil {cs : List Char} (blank : ∀ c ∈ cs, isBlank c = true) : Spaced [] cs
  | cons {parts : List (List Char)} {part b cs text : List Char} (blank : ∀ c ∈ b, isBlank c = true)
      (h : text = b ++ (part ++ cs)) (rest : Spaced parts cs) : Spaced (part :: parts) text

namespace Spaced
variable {parts : List (List Char)} {cs : List Char}

theorem blank_or_mem (h : Spaced parts cs) {c : Char} (hc : c ∈ cs) :
    isBlank c = true ∨ ∃ part ∈ parts, c ∈ part := by
  induction h with
  | nil blank => exact .inl (blank c hc)
  | cons blank h _ ih =>
    rw [h, List.mem_append, List.mem_append] at hc
    rcases hc with hc | hc | hc
    · exact .inl (blank c hc)
    · exact .inr ⟨_, List.mem_cons_self, hc⟩
    · apply (ih hc).imp_right
      rintro ⟨part, hpart, hmem⟩
      exact ⟨part, List.mem_cons_of_mem _ hpart, hmem⟩

/-- A text is spaced on either side of each of its parts. -/
theorem exists_sides {before after : List (List Char)} {part : List Char}
    (h : Spaced (before ++ part :: after) cs) :
    ∃ left right, cs = left ++ (part ++ right) ∧ Spaced before left ∧ Spaced after right := by
  induction before generalizing cs with
  | nil =>
    cases h with
    | cons blank h rest => exact ⟨_, _, h, .nil blank, rest⟩
  | cons first before ih =>
    cases h with
    | cons blank h rest =>
      obtain ⟨left, right, hsplit, hleft, hright⟩ := ih rest
      refine ⟨_, right, ?_, .cons blank rfl hleft, hright⟩
      rw [h, hsplit]
      simp only [List.append_assoc]

theorem exists_blanks {first second : List Char} (h : Spaced [first, second] cs) :
    ∃ b₁ b₂ b₃, (∀ c ∈ b₁, isBlank c = true) ∧ (∀ c ∈ b₂, isBlank c = true) ∧
      (∀ c ∈ b₃, isBlank c = true) ∧ cs = b₁ ++ (first ++ (b₂ ++ (second ++ b₃))) := by
  cases h with
  | cons h₁ hfirst rest =>
    cases rest with
    | cons h₂ hsecond rest =>
      cases rest with
      | nil h₃ =>
        refine ⟨_, _, _, h₁, h₂, h₃, ?_⟩
        rw [hfirst, hsecond]

end Spaced
end Text

namespace Criterion
open Operator Text

theorem isSlot_not_blank {c : Char} (h : isSlot c = true) : isBlank c = false := by
  rcases RangeText.isSlot_iff.mp h with rfl | rfl <;> exact isBlank_of_visible (by decide)

theorem isBlank_not_slot {c : Char} (h : isBlank c = true) : isSlot c = false := by
  cases hs : isSlot c with
  | false => rfl
  | true => exact absurd h (Bool.eq_false_iff.mp (isSlot_not_blank hs))

theorem IsNumberText.not_isSlot {cs : List Char} (h : IsNumberText cs) {c : Char} (hc : c ∈ cs) :
    isSlot c = false := by
  rcases (Value.numberText_chars h).1 c hc with hn | hblank
  · exact RangeText.isNumeral_not_slot hn
  · exact isBlank_not_slot hblank

theorem written_not_isSlot {o : Option Operator} {c : Char} (hc : c ∈ written o) :
    isSlot c = false := by
  cases o with
  | none => simp [written] at hc
  | some op => exact (symbol_plain op c hc).2.2

section Sides
variable {number side : List Char} {o : Option Operator}

theorem not_isSlot_of_spaced {parts : List (List Char)} (hnumber : IsNumberText number)
    (h : Spaced parts side) (hparts : parts ⊆ [number, written o]) {c : Char} (hc : c ∈ side) :
    isSlot c = false := by
  rcases h.blank_or_mem hc with hblank | ⟨part, hpart, hmem⟩
  · exact isBlank_not_slot hblank
  rcases List.mem_pair.mp (hparts hpart) with rfl | rfl
  · exact hnumber.not_isSlot hmem
  · exact written_not_isSlot hmem

/-- A left side ends with its operator. Before it stands the number between blanks. -/
theorem exists_number_of_left (h : Spaced [number, written o] side) :
    ∃ n, trim side = n ++ written o ∧ trim n = trim number := by
  obtain ⟨b₁, b₂, b₃, h₁, h₂, h₃, rfl⟩ := h.exists_blanks
  rw [trim_blank_append h₁]
  cases o with
  | none =>
    refine ⟨trim number, ?_, trim_trim number⟩
    rw [written, List.nil_append, List.append_nil, trim_append_blank _ (append_blank h₂ h₃)]
  | some op =>
    have hplain : ∀ c ∈ op.symbol, isBlank c = false := fun c hc => (symbol_plain op c hc).2.1
    refine ⟨trimStart (number ++ b₂), ?_, ?_⟩
    · have hassoc : number ++ (b₂ ++ (op.symbol ++ b₃)) = number ++ b₂ ++ op.symbol ++ b₃ := by
        simp only [List.append_assoc]
      rw [written, hassoc, trim_append_blank _ h₃, trim_append_plain (symbol_ne_nil op) hplain]
    · rw [trim_trimStart, trim_append_blank _ h₂]

theorem exists_number_of_right (h : Spaced [written o, number] side) :
    ∃ n, trim side = written o ++ n ∧ trim n = trim number := by
  obtain ⟨b₁, b₂, b₃, h₁, h₂, h₃, rfl⟩ := h.exists_blanks
  rw [trim_blank_append h₁]
  cases o with
  | none =>
    refine ⟨trim number, ?_, trim_trim number⟩
    rw [written, List.nil_append, List.nil_append, trim_blank_append h₂, trim_append_blank _ h₃]
  | some op =>
    have hplain : ∀ c ∈ op.symbol, isBlank c = false := fun c hc => (symbol_plain op c hc).2.1
    refine ⟨trimEnd (b₂ ++ (number ++ b₃)), ?_, ?_⟩
    · exact trim_plain_append (symbol_ne_nil op) hplain _
    · rw [trim_trimEnd, trim_blank_append h₂, trim_append_blank _ h₃]

end Sides

variable {left right : List Char} {o p : Option Operator} {slot : Char}

/-- Two numbers and two operators around a slot, with any blanks, are the range of these bounds. -/
theorem ofChars_of_spaced {cs : List Char} (hleft : IsNumberText left) (hright : IsNumberText right)
    (hslot : isSlot slot = true) (h : Spaced [left, written o, [slot], written p, right] cs) :
    ofChars cs = range ⟨(o.getD .equal).converse, .ofChars left⟩ ⟨p.getD .equal, .ofChars right⟩ := by
  have h : Spaced ([left, written o] ++ [slot] :: [written p, right]) cs := h
  obtain ⟨a, b, rfl, ha, hb⟩ := h.exists_sides
  obtain ⟨n, hn, hnl⟩ := exists_number_of_left ha
  obtain ⟨m, hm, hmr⟩ := exists_number_of_right hb
  -- The whole text is cut at its ends only. Each side is cut again, at both ends, when it is read.
  have htrim := trim_append_cons a (isSlot_not_blank hslot) b
  have hspells : RangeText.Spells ⟨trimStart a, slot, trimEnd b, n, o, p, m⟩
      (trim (a ++ ([slot] ++ b))) := by
    refine ⟨htrim, RangeText.isSlot_iff.mp hslot, ?_, ?_, ?_,
      (isNumberText_congr hnl).mpr hleft, (isNumberText_congr hmr).mpr hright⟩
    · intro c hc
      apply RangeText.not_isSlot_iff.mp
      rcases List.mem_append.mp hc with hc | hc
      · exact not_isSlot_of_spaced hleft ha (List.Subset.refl _) (mem_of_mem_trimStart hc)
      · exact not_isSlot_of_spaced (o := p) hright hb (by simp) (mem_of_mem_trimEnd hc)
    · rw [trim_trimStart, hn]
    · rw [trim_trimEnd, hm]
  have hmeans := (Means.range _ hspells).ofChars_eq
  rw [RangeText.criterion, Value.ofChars_congr hnl, Value.ofChars_congr hmr] at hmeans
  exact hmeans

theorem accepts_range_comm (lower upper : Bound) (v : Value) :
    (range lower upper).accepts v = (range upper lower).accepts v := by
  simp only [accepts, Bool.and_assoc, Bool.and_comm (lower.admits _)]

theorem getD_map_converse (o : Option Operator) :
    (o.map converse).getD .equal = (o.getD .equal).converse := by
  cases o <;> rfl

/-- Turned around, with the converse operators, a range text is a range again and accepts the same
inputs, however many blanks stand in the two texts and whichever letter stands for the input. -/
theorem range_from_either_end (hleft : IsNumberText left) (hright : IsNumberText right)
    (hslot : isSlot slot = true) {slot' : Char} (hslot' : isSlot slot' = true) {e e' : String}
    (he : Spaced [left, written o, [slot], written p, right] e.toList)
    (he' : Spaced [right, written (p.map converse), [slot'], written (o.map converse), left]
      e'.toList) :
    (parse e).isRange = true ∧ (parse e').isRange = true ∧
    ∀ v, (parse e).accepts v = (parse e').accepts v := by
  have hparse := ofChars_of_spaced hleft hright hslot he
  have hparse' := ofChars_of_spaced hright hleft hslot' he'
  rw [getD_map_converse, getD_map_converse, converse_converse] at hparse'
  rw [parse, parse, hparse, hparse']
  exact ⟨rfl, rfl, accepts_range_comm _ _⟩

/-- Blanks in all places of the one text, few in the other, and an operator without converse. -/
theorem quotient_from_either_end :
    (IsNumberText ['-', '2', '.', '5'] ∧ IsNumberText ['5']) ∧
    (isSlot 'x' = true ∧ isSlot 'X' = true) ∧
    Spaced [['-', '2', '.', '5'], written (some .lessEqual), ['x'], written (some .quotient), ['5']]
      " -2.5 <= x %= 5 ".toList ∧
    Spaced [['5'], written (some .quotient), ['X'], written (some .greaterEqual),
      ['-', '2', '.', '5']] "5%=X>=-2.5".toList ∧
    (parse " -2.5 <= x %= 5 ").isRange = true ∧ (parse "5%=X>=-2.5").isRange = true ∧
    ∀ v, (parse " -2.5 <= x %= 5 ").accepts v = (parse "5%=X>=-2.5").accepts v := by
  have hleft : IsNumberText ['-', '2', '.', '5'] := by decide
  have hright : IsNumberText ['5'] := by decide
  have hblank : ∀ c ∈ [' '], isBlank c = true := by simp [isBlank]
  have hnone : ∀ c ∈ [], isBlank c = true := by simp
  have he : Spaced [['-', '2', '.', '5'], written (some .lessEqual), ['x'],
      written (some .quotient), ['5']] " -2.5 <= x %= 5 ".toList :=
    .cons hblank (by decide) (.cons hblank rfl (.cons hblank rfl (.cons hblank rfl
      (.cons hblank rfl (.nil hblank)))))
  have he' : Spaced [['5'], written (some .quotient), ['X'], written (some .greaterEqual),
      ['-', '2', '.', '5']] "5%=X>=-2.5".toList :=
    .cons hnone (by decide) (.cons hnone rfl (.cons hnone rfl (.cons hnone rfl
      (.cons hnone rfl (.nil hnone)))))
  exact ⟨⟨hleft, hright⟩, ⟨rfl, rfl⟩, he, he',
    range_from_either_end (o := some .lessEqual) (p := some .quotient) hleft hright rfl rfl he he'⟩

end Criterion
end Criteria
