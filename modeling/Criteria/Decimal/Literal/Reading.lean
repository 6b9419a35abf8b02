import Criteria.Decimal.Literal

/-!
Literals and their texts are in one-to-one correspondence: a text is read as a literal exactly if
it is the text of that well-formed literal.
-/

namespace Criteria
set_option autoImplicit false

theorem Sign.chars_split (cs : List Char) :
    Sign.chars (Sign.split cs).1 ++ (Sign.split cs).2 = cs := by
  unfold Sign.split
  split <;> rfl

theorem Sign.split_chars (s : Option Sign) {cs : List Char}
    (h : s = none → ∀ c ∈ cs.head?, c ≠ '+' ∧ c ≠ '-') :
    Sign.split (Sign.chars s ++ cs) = (s, cs) := by
  cases s with
  | some s => cases s <;> rfl
  | none =>
    cases cs with
    | nil => rfl
    | cons c r =>
      obtain ⟨hp, hm⟩ := h rfl c rfl
      simp only [chars, List.nil_append]
      unfold split
      split <;> simp_all

theorem splitDigits {ds cs : List Char} (hd : ds.all Char.isDigit)
    (hc : ∀ c ∈ cs.head?, c.isDigit = false) :
    (ds ++ cs).takeWhile Char.isDigit = ds ∧ (ds ++ cs).dropWhile Char.isDigit = cs := by
  rw [List.all_eq_true] at hd
  rw [List.takeWhile_append_of_pos hd, List.dropWhile_append_of_pos hd]
  cases cs with
  | nil => simp
  | cons c r => simp [hc c rfl]

structure Exponent.WellFormed (e : Exponent) : Prop where
  mark : Exponent.isMark e.mark
  nonempty : e.digits ≠ []
  digits : e.digits.all Char.isDigit

structure Literal.WellFormed (l : Literal) : Prop where
  whole : l.whole.all Char.isDigit
  fraction : (l.fraction.getD []).all Char.isDigit
  nonempty : l.whole ≠ [] ∨ l.fraction.getD [] ≠ []
  exponent : ∀ e ∈ l.exponent, e.WellFormed

theorem isDigit_ne_sign {c : Char} (h : c.isDigit) : c ≠ '+' ∧ c ≠ '-' := by
  constructor <;> rintro rfl <;> simp at h

theorem Exponent.scan?_chars {e : Exponent} (h : e.WellFormed) : scan? e.chars = some e := by
  have hs : Sign.split (Sign.chars e.sign ++ e.digits) = (e.sign, e.digits) := by
    refine Sign.split_chars _ fun _ c hc => isDigit_ne_sign ?_
    exact List.all_eq_true.mp h.digits c (List.mem_of_mem_head? hc)
  simp [chars, scan?, hs, h.mark, h.nonempty, h.digits]

theorem Exponent.of_scan? {cs : List Char} {e : Exponent} (h : scan? cs = some e) :
    e.WellFormed ∧ e.chars = cs := by
  cases cs with
  | nil => simp [scan?] at h
  | cons mark r =>
    simp only [scan?, Option.ite_none_right_eq_some, Bool.and_eq_true, Option.some.injEq] at h
    obtain ⟨⟨⟨hm, hn⟩, hd⟩, rfl⟩ := h
    refine ⟨⟨hm, by simpa using hn, hd⟩, ?_⟩
    simpa [chars] using Sign.chars_split r

namespace Literal

theorem exponentChars_head {e : Option Exponent} (h : ∀ x ∈ e, x.WellFormed) :
    ∀ c ∈ (exponentChars e).head?, c.isDigit = false ∧ c ≠ '.' ∧ c ≠ '+' ∧ c ≠ '-' := by
  cases e with
  | none => simp [exponentChars]
  | some e =>
    intro c hc
    have hm := (h e rfl).mark
    simp only [exponentChars, Exponent.chars, List.cons_append, List.head?_cons,
      Option.mem_some_iff] at hc
    subst hc
    simp only [Exponent.isMark, Bool.or_eq_true, beq_iff_eq] at hm
    rcases hm with hm | hm <;> rw [hm] <;> decide

theorem tail_head {f : Option (List Char)} {e : Option Exponent} (h : ∀ x ∈ e, x.WellFormed) :
    ∀ c ∈ (fractionChars f ++ exponentChars e).head?, c.isDigit = false ∧ c ≠ '+' ∧ c ≠ '-' := by
  intro c hc
  cases f with
  | none =>
    have := exponentChars_head h c hc
    exact ⟨this.1, this.2.2⟩
  | some ds =>
    simp only [fractionChars, List.cons_append, List.head?_cons, Option.mem_some_iff] at hc
    subst hc
    decide

theorem splitFraction_chars {f : Option (List Char)} {e : Option Exponent}
    (hf : (f.getD []).all Char.isDigit) (he : ∀ x ∈ e, x.WellFormed) :
    splitFraction (fractionChars f ++ exponentChars e) = (f, exponentChars e) := by
  cases f with
  | none =>
    simp only [fractionChars, List.nil_append]
    unfold splitFraction
    split
    · next r hr =>
      have := exponentChars_head he '.' (by simp [hr])
      simp at this
    · rfl
  | some ds =>
    obtain ⟨ht, hd⟩ := splitDigits (show ds.all Char.isDigit from hf) fun c hc =>
      (exponentChars_head he c hc).1
    simp [fractionChars, splitFraction, ht, hd]

theorem chars_splitFraction (cs : List Char) :
    fractionChars (splitFraction cs).1 ++ (splitFraction cs).2 = cs := by
  unfold splitFraction
  split <;> simp [fractionChars]

theorem scan?_chars {l : Literal} (h : l.WellFormed) : scan? l.chars = some l := by
  obtain ⟨sign, whole, fraction, exponent⟩ := l
  obtain ⟨hw, hf, hn, he⟩ := h
  simp only at hw hf hn he
  have hs : Sign.split (Sign.chars sign ++ (whole ++ (fractionChars fraction ++
      exponentChars exponent))) = (sign, whole ++ (fractionChars fraction ++
      exponentChars exponent)) := by
    refine Sign.split_chars _ fun _ c hc => ?_
    cases whole with
    | nil => exact (tail_head he c hc).2
    | cons d r =>
      simp only [List.cons_append, List.head?_cons, Option.mem_some_iff] at hc
      subst hc
      exact isDigit_ne_sign (by simpa using (List.all_eq_true.mp hw d (by simp)))
  obtain ⟨ht, hd⟩ := splitDigits hw fun c hc => (tail_head (f := fraction) he c hc).1
  have hn : (whole.isEmpty && (fraction.getD []).isEmpty) = false := by
    cases whole <;> cases hg : fraction.getD [] <;> simp_all
  simp only [chars, List.append_assoc, scan?, hs, ht, hd, splitFraction_chars hf he, hn]
  cases exponent with
  | none => simp [exponentChars]
  | some e =>
    have hc : e.chars.isEmpty = false := rfl
    simp [exponentChars, Exponent.scan?_chars (he e rfl), hc]

theorem of_scan? {cs : List Char} {l : Literal} (h : scan? cs = some l) :
    l.WellFormed ∧ l.chars = cs := by
  have hsign := Sign.chars_split cs
  generalize hb : (Sign.split cs).2 = body at hsign
  have hbody := List.takeWhile_append_dropWhile (p := Char.isDigit) (l := body)
  have htail := chars_splitFraction (body.dropWhile Char.isDigit)
  have hwhole : (body.takeWhile Char.isDigit).all Char.isDigit := List.all_takeWhile
  have hfrac : ((splitFraction (body.dropWhile Char.isDigit)).1.getD []).all Char.isDigit := by
    unfold splitFraction
    split <;> simp [List.all_takeWhile]
  simp only [scan?, hb] at h
  split at h
  · simp at h
  next hn =>
  have hn : body.takeWhile Char.isDigit ≠ [] ∨
      (splitFraction (body.dropWhile Char.isDigit)).1.getD [] ≠ [] := by
    by_cases hw : body.takeWhile Char.isDigit = []
    · exact .inr fun hf => hn (by simp [hw, hf])
    · exact .inl hw
  split at h
  · next he =>
    obtain rfl := Option.some.inj h
    refine ⟨⟨hwhole, hfrac, hn, by simp⟩, ?_⟩
    rw [List.isEmpty_iff.mp he, List.append_nil] at htail
    simp only [chars, exponentChars, List.append_nil, List.append_assoc, htail, hbody, hsign]
  · obtain ⟨e, he, rfl⟩ := Option.map_eq_some_iff.mp h
    obtain ⟨hwf, hc⟩ := Exponent.of_scan? he
    refine ⟨⟨hwhole, hfrac, hn, by simpa using hwf⟩, ?_⟩
    simp only [chars, exponentChars, hc, List.append_assoc, htail, hbody, hsign]

theorem scan?_eq_some_iff {cs : List Char} {l : Literal} :
    scan? cs = some l ↔ l.WellFormed ∧ l.chars = cs :=
  ⟨of_scan?, fun ⟨h, e⟩ => e ▸ scan?_chars h⟩

theorem ofInt_wellFormed (n : Int) : (ofInt n).WellFormed where
  whole := by
    rw [List.all_eq_true]
    exact fun c hc => Nat.isDigit_of_mem_toDigits (by decide) (by decide) hc
  fraction := rfl
  nonempty := .inl Nat.toDigits_ne_nil
  exponent := by simp [ofInt]

@[simp] theorem integer?_ofInt (n : Int) : (ofInt n).integer? = some n := by
  have digits : Nat.ofDigitChars 10 (Nat.toDigits 10 n.natAbs) 0 = n.natAbs :=
    Nat.ofDigitChars_ten_toDigits
  have value : (if (ofInt n).isNegative then -(n.natAbs : Int) else n.natAbs) = n := by
    by_cases h : n < 0
    · rw [if_pos (by rw [isNegative, ofInt, if_pos h]; rfl)]; omega
    · rw [if_neg (by rw [isNegative, ofInt, if_neg h]; exact Bool.false_ne_true)]; omega
  change some (if (ofInt n).isNegative then -(Nat.ofDigitChars 10 (Nat.toDigits 10 n.natAbs) 0 : Int)
    else (Nat.ofDigitChars 10 (Nat.toDigits 10 n.natAbs) 0 : Int)) = some n
  rw [digits, value]

end Literal
end Criteria
