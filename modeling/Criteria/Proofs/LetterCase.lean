import Criteria.Criterion.Accepts
import Criteria.Proofs.Grammar

/-!
# Letter case

Two expressions that differ in the case of ASCII letters alone, and two inputs that do, give the
same verdict. Every reader commutes with lower-casing its text: the letters that it looks at are the
slot, the mark of an exponent and the truth words, and it knows all of them in both cases.
-/

namespace Criteria
set_option autoImplicit false

namespace Text

theorem toLower_eq_self {c : Char} (h : ¬ (0x41 ≤ c.toNat ∧ c.toNat ≤ 0x5A)) : c.toLower = c := by
  apply dif_neg
  intro hc
  exact h ⟨UInt32.le_iff_toNat_le.mp hc.1, UInt32.le_iff_toNat_le.mp hc.2⟩

theorem toLower_of_isDigit {c : Char} (h : c.isDigit = true) : c.toLower = c := by
  have hc : c.toNat ≤ 0x39 := (Char.isDigit_iff_toNat.mp h).2
  exact toLower_eq_self (by omega)

/-- What is the same for each of the 26 letters in both cases cannot tell a character from its lower
case. -/
theorem map_toLower_eq {α : Type} {f : Char → α}
    (h : ∀ i < 26, f (Char.ofNat (0x61 + i)) = f (Char.ofNat (0x41 + i))) (c : Char) :
    f c.toLower = f c := by
  by_cases hc : 0x41 ≤ c.toNat ∧ c.toNat ≤ 0x5A
  · obtain ⟨i, hi⟩ := Nat.exists_eq_add_of_le hc.1
    have hupper : c = Char.ofNat (0x41 + i) := by rw [← hi, Char.ofNat_toNat]
    have hlt : i < 26 := by omega
    have hlower : ∀ i < 26, (Char.ofNat (0x41 + i)).toLower = Char.ofNat (0x61 + i) := by decide
    rw [hupper, hlower i hlt, h i hlt]
  · rw [toLower_eq_self hc]

theorem isBlank_toLower (c : Char) : isBlank c.toLower = isBlank c := map_toLower_eq (by decide) c

theorem isDigit_toLower (c : Char) : c.toLower.isDigit = c.isDigit :=
  map_toLower_eq (f := Char.isDigit) (by decide) c

theorem toLower_toLower (c : Char) : c.toLower.toLower = c.toLower :=
  map_toLower_eq (f := Char.toLower) (by decide) c

theorem lowercase_toLower (c : Char) : lowercase c.toLower = lowercase c :=
  map_toLower_eq (f := lowercase) (by decide) c

theorem beq_toLower {s : Char} (h : s.isAlpha = false) (c : Char) :
    (s == c.toLower) = (s == c) := by
  have hletters : ∀ i < 26, (Char.ofNat (0x61 + i)).isAlpha ∧ (Char.ofNat (0x41 + i)).isAlpha := by
    decide
  have hne (d : Char) (hd : d.isAlpha = true) : (s == d) = false := by
    rw [beq_eq_false_iff_ne]
    rintro rfl
    simp [h] at hd
  refine map_toLower_eq (f := (s == ·)) (fun i hi => ?_) c
  rw [hne _ (hletters i hi).1, hne _ (hletters i hi).2]

theorem toLower_eq_iff {s : Char} (h : s.isAlpha = false) (c : Char) : c.toLower = s ↔ c = s := by
  have hbeq := beq_toLower h c
  rw [Bool.eq_iff_iff, beq_iff_eq, beq_iff_eq] at hbeq
  rw [eq_comm, hbeq, eq_comm]

/-- The text with its ASCII letters in lower case. -/
def folded (cs : List Char) : List Char := cs.map Char.toLower

@[simp] theorem folded_nil : folded [] = [] := rfl

@[simp] theorem folded_cons (c : Char) (cs : List Char) :
    folded (c :: cs) = c.toLower :: folded cs := rfl

@[simp] theorem isEmpty_folded (cs : List Char) : (folded cs).isEmpty = cs.isEmpty :=
  List.isEmpty_map

theorem folded_reverse (cs : List Char) : folded cs.reverse = (folded cs).reverse :=
  List.map_reverse

@[simp] theorem folded_folded (cs : List Char) : folded (folded cs) = folded cs := by
  rw [folded, folded, List.map_map]
  exact List.map_congr_left fun c _ => toLower_toLower c

theorem exists_of_folded_eq_cons {s : Char} (h : s.isAlpha = false) {cs rest : List Char}
    (hcs : folded cs = s :: rest) : ∃ r, cs = s :: r ∧ rest = folded r := by
  obtain ⟨d, r, rfl, hd, hr⟩ := List.map_eq_cons_iff.mp hcs
  exact ⟨r, by rw [(toLower_eq_iff h d).mp hd], hr.symm⟩

theorem folded_digits {ds : List Char} (h : ds.all Char.isDigit = true) : folded ds = ds := by
  rw [folded, List.map_congr_left (g := id), List.map_id]
  exact fun c hc => toLower_of_isDigit (List.all_eq_true.mp h c hc)

theorem sameAscii_iff {a b : List Char} : sameAscii a b = true ↔ folded a = folded b := by
  rw [sameAscii, beq_iff_eq, folded, folded]

@[simp] theorem sameAscii_folded (a b : List Char) : sameAscii (folded a) b = sameAscii a b := by
  rw [Bool.eq_iff_iff, sameAscii_iff, sameAscii_iff, folded_folded]

@[simp] theorem lowered_folded (cs : List Char) : lowered (folded cs) = lowered cs := by
  rw [lowered, folded, List.flatMap_map]
  exact List.flatMap_congr fun c _ => lowercase_toLower c

-- A class of characters with every letter in both cases or in none.
section classes
variable {p : Char → Bool} (h : ∀ c, p c.toLower = p c)
include h

theorem comp_toLower : p ∘ Char.toLower = p := funext h

theorem takeWhile_folded (cs : List Char) : (folded cs).takeWhile p = folded (cs.takeWhile p) := by
  rw [folded, List.takeWhile_map, comp_toLower h, folded]

theorem dropWhile_folded (cs : List Char) : (folded cs).dropWhile p = folded (cs.dropWhile p) := by
  rw [folded, List.dropWhile_map, comp_toLower h, folded]

theorem all_folded (cs : List Char) : (folded cs).all p = cs.all p := by
  rw [folded, List.all_map, comp_toLower h]

theorem any_folded (cs : List Char) : (folded cs).any p = cs.any p := by
  rw [folded, List.any_map, comp_toLower h]

end classes

theorem trim_folded (cs : List Char) : trim (folded cs) = folded (trim cs) := by
  rw [trim, trimStart, trimEnd, dropWhile_folded isBlank_toLower, ← folded_reverse,
    dropWhile_folded isBlank_toLower, ← folded_reverse]
  rfl

end Text

open Text

namespace Operator

theorem symbol_not_letter (op : Operator) : ∀ s ∈ op.symbol, s.isAlpha = false := by
  cases op <;> simp [symbol]

section
variable {symbol : List Char} (h : ∀ s ∈ symbol, s.isAlpha = false)
include h

theorem isPrefixOf?_folded (cs : List Char) :
    symbol.isPrefixOf? (folded cs) = (symbol.isPrefixOf? cs).map folded := by
  induction symbol generalizing cs with
  | nil => rfl
  | cons s symbol ih =>
    cases cs with
    | nil => rfl
    | cons c cs =>
      simp only [folded_cons, List.isPrefixOf?, beq_toLower (h s List.mem_cons_self)]
      rw [ih fun t ht => h t (List.mem_cons_of_mem s ht)]
      split <;> rfl

theorem isSuffixOf?_folded (cs : List Char) :
    symbol.isSuffixOf? (folded cs) = (symbol.isSuffixOf? cs).map folded := by
  rw [List.isSuffixOf?, List.isSuffixOf?, ← folded_reverse,
    isPrefixOf?_folded fun s hs => h s (List.mem_reverse.mp hs)]
  simp only [Option.map_map]
  exact congrArg (Option.map · _) (funext fun rest => (folded_reverse rest).symm)

end

theorem leading?_folded (cs : List Char) :
    leading? (folded cs) = (leading? cs).map (Prod.map id folded) := by
  simp only [leading?, isPrefixOf?_folded (symbol_not_letter _), List.map_findSome?]
  simp [Function.comp_def]

theorem trailing?_folded (cs : List Char) :
    trailing? (folded cs) = (trailing? cs).map (Prod.map id folded) := by
  simp only [trailing?, isSuffixOf?_folded (symbol_not_letter _), List.map_findSome?]
  simp [Function.comp_def]

end Operator

namespace Sign

theorem split_cons {c : Char} (hp : c ≠ '+') (hm : c ≠ '-') (r : List Char) :
    split (c :: r) = (none, c :: r) := by
  refine split_chars none fun _ d hd => ?_
  obtain rfl : c = d := by simpa using hd
  exact ⟨hp, hm⟩

theorem split_folded (cs : List Char) :
    split (folded cs) = ((split cs).1, folded (split cs).2) := by
  cases cs with
  | nil => rfl
  | cons c r =>
    by_cases hp : c = '+'
    · subst hp
      rfl
    by_cases hm : c = '-'
    · subst hm
      rfl
    have hp' : c.toLower ≠ '+' := mt (toLower_eq_iff (by decide) c).mp hp
    have hm' : c.toLower ≠ '-' := mt (toLower_eq_iff (by decide) c).mp hm
    rw [split_cons hp hm, folded_cons, split_cons hp' hm']

end Sign

namespace Exponent

theorem isMark_toLower (c : Char) : isMark c.toLower = isMark c :=
  map_toLower_eq (f := isMark) (by decide) c

def folded (e : Exponent) : Exponent := ⟨e.mark.toLower, e.sign, Text.folded e.digits⟩

theorem scan?_folded (cs : List Char) : scan? (Text.folded cs) = (scan? cs).map folded := by
  cases cs with
  | nil => rfl
  | cons mark r =>
    simp only [folded_cons, scan?, Sign.split_folded, isMark_toLower, isEmpty_folded,
      all_folded isDigit_toLower]
    split <;> rfl

end Exponent

namespace Literal

def folded (l : Literal) : Literal :=
  ⟨l.sign, Text.folded l.whole, l.fraction.map Text.folded, l.exponent.map Exponent.folded⟩

theorem splitFraction_cons {c : Char} (h : c ≠ '.') (r : List Char) :
    splitFraction (c :: r) = (none, c :: r) := by
  unfold splitFraction
  split
  · next he => exact absurd (List.cons.inj he).1 h
  · rfl

theorem splitFraction_folded (cs : List Char) : splitFraction (Text.folded cs) =
    ((splitFraction cs).1.map Text.folded, Text.folded (splitFraction cs).2) := by
  cases cs with
  | nil => rfl
  | cons c r =>
    by_cases hc : c = '.'
    · subst hc
      change (some ((Text.folded r).takeWhile Char.isDigit),
        (Text.folded r).dropWhile Char.isDigit) = _
      rw [takeWhile_folded isDigit_toLower, dropWhile_folded isDigit_toLower]
      rfl
    · have hc' : c.toLower ≠ '.' := mt (toLower_eq_iff (by decide) c).mp hc
      rw [splitFraction_cons hc, folded_cons, splitFraction_cons hc']
      rfl

theorem scan?_folded (cs : List Char) : scan? (Text.folded cs) = (scan? cs).map folded := by
  have hempty (o : Option (List Char)) :
      ((o.map Text.folded).getD []).isEmpty = (o.getD []).isEmpty := by
    cases o <;> simp
  simp only [scan?, Sign.split_folded, takeWhile_folded isDigit_toLower,
    dropWhile_folded isDigit_toLower, splitFraction_folded, isEmpty_folded, hempty,
    Exponent.scan?_folded]
  split
  · rfl
  split
  · rfl
  · simp only [Option.map_map]
    rfl

variable {l : Literal}

/-- Only the mark of its exponent can change in a literal. -/
theorem WellFormed.folded_eq (h : l.WellFormed) : l.folded =
    ⟨l.sign, l.whole, l.fraction, l.exponent.map fun e => ⟨e.mark.toLower, e.sign, e.digits⟩⟩ := by
  have hfraction : l.fraction.map Text.folded = l.fraction := by
    have hall := h.fraction
    cases hl : l.fraction with
    | none => rfl
    | some ds => exact congrArg some (folded_digits (by simpa [hl] using hall))
  have hexponent : l.exponent.map Exponent.folded =
      l.exponent.map fun e => ⟨e.mark.toLower, e.sign, e.digits⟩ := by
    cases hl : l.exponent with
    | none => rfl
    | some e =>
      have hdigits := folded_digits (h.exponent e hl).digits
      simp only [Option.map_some, Exponent.folded, hdigits]
  rw [folded, folded_digits h.whole, hfraction, hexponent]

theorem WellFormed.decimal_folded (h : l.WellFormed) : l.folded.decimal = l.decimal := by
  rw [h.folded_eq]
  cases hl : l.exponent with
  | none => simp [decimal, isNegative, hl]
  | some e => simp [decimal, isNegative, hl, Exponent.value]

theorem WellFormed.single?_folded (h : l.WellFormed) : l.folded.single? = l.single? := by
  rw [single?, single?, h.decimal_folded]

theorem WellFormed.int32?_folded (h : l.WellFormed) : l.folded.int32? = l.int32? := by
  rw [h.folded_eq]
  simp [int32?, integer?, isNegative]

end Literal

namespace Value

/-- The value with the ASCII letters of its text in lower case. -/
def folded : Value → Value
  | text s => text (String.ofList (Text.folded s.toList))
  | v => v

theorem infer_folded (cs : List Char) : infer (Text.folded cs) = (infer cs).folded := by
  have htext : text (String.ofList (Text.folded cs)) = (text (String.ofList cs)).folded := by
    rw [folded, String.toList_ofList]
  rw [infer, infer, Literal.scan?_folded]
  cases hl : Literal.scan? cs with
  | none =>
    simp only [Option.map_none, sameAscii_folded]
    split
    · rfl
    split
    · rfl
    · exact htext
  | some l =>
    obtain ⟨hwell, _⟩ := Literal.of_scan? hl
    simp only [Option.map_some, hwell.int32?_folded, hwell.single?_folded]
    split
    · rfl
    · rfl
    · exact htext

theorem ofChars_folded (cs : List Char) : ofChars (Text.folded cs) = (ofChars cs).folded := by
  rw [ofChars, trim_folded, infer_folded, ofChars]

theorem isNumber_folded (v : Value) : v.folded.isNumber = v.isNumber := by
  cases v <;> rfl

theorem folded_of_isNumber {v : Value} (h : v.isNumber = true) : v.folded = v := by
  cases v with
  | text s => simp [isNumber, kind] at h
  | absent | integer | float | boolean => rfl

theorem isPresent_folded (v : Value) : v.folded.isPresent = v.isPresent := by
  cases v <;> rfl

theorem toSingle_folded (v : Value) : v.folded.toSingle = v.toSingle := by
  cases v with
  | text s =>
    rw [folded, toSingle, toSingle, String.toList_ofList, trim_folded, Literal.scan?_folded]
    cases hl : Literal.scan? (trim s.toList) with
    | none => rfl
    | some l =>
      obtain ⟨hwell, _⟩ := Literal.of_scan? hl
      simp only [Option.map_some, Option.bind_some, hwell.single?_folded]
  | absent | integer | float | boolean => rfl

theorem satisfies_folded (v : Value) (op : Operator) (w : Value) :
    v.folded.satisfies op w.folded = v.satisfies op w := by
  cases v with
  | text s =>
    cases w with
    | text t => simp [folded, satisfies, sameLetters]
    | absent | integer | float | boolean => rfl
  | absent | integer | float | boolean => cases w <;> rfl

end Value

namespace Criterion

theorem isSlot_toLower (c : Char) : isSlot c.toLower = isSlot c :=
  map_toLower_eq (f := isSlot) (by decide) c

theorem splitSlot?_folded (cs : List Char) :
    splitSlot? (Text.folded cs) = (splitSlot? cs).map (Prod.map Text.folded Text.folded) := by
  have hslot : ∀ c : Char, (!isSlot c.toLower) = !isSlot c := fun c => by rw [isSlot_toLower]
  rw [splitSlot?, splitSlot?, dropWhile_folded hslot, takeWhile_folded hslot]
  cases cs.dropWhile (!isSlot ·) with
  | nil => rfl
  | cons slot right =>
    simp only [folded_cons, any_folded isSlot_toLower]
    split <;> rfl

theorem numericBound?_folded (op : Operator) (cs : List Char) :
    numericBound? op (Text.folded cs) = numericBound? op cs := by
  simp only [numericBound?, Value.ofChars_folded, Value.isNumber_folded]
  split
  · next h => rw [Value.folded_of_isNumber h]
  · rfl

theorem lowerBound?_folded (cs : List Char) : lowerBound? (Text.folded cs) = lowerBound? cs := by
  simp only [lowerBound?, trim_folded, Operator.trailing?_folded]
  cases Operator.trailing? (trim cs) with
  | none => exact numericBound?_folded _ _
  | some r => exact numericBound?_folded _ _

theorem upperBound?_folded (cs : List Char) : upperBound? (Text.folded cs) = upperBound? cs := by
  simp only [upperBound?, trim_folded, Operator.leading?_folded]
  cases Operator.leading? (trim cs) with
  | none => exact numericBound?_folded _ _
  | some r => exact numericBound?_folded _ _

/-- The bounds of a range are numbers, in which no letter is left. -/
theorem range?_folded (cs : List Char) : range? (Text.folded cs) = range? cs := by
  rw [range?, range?, splitSlot?_folded]
  cases splitSlot? cs with
  | none => rfl
  | some sides =>
    simp only [Option.map_some, Option.bind_eq_bind, Option.bind_some, Prod.map_fst, Prod.map_snd,
      lowerBound?_folded, upperBound?_folded]

/-- The criterion with the letters of its reference in lower case. A range has numbers only. -/
def folded : Criterion → Criterion
  | single op reference => single op reference.folded
  | c => c

theorem ofSingle_folded (cs : List Char) : ofSingle (Text.folded cs) = (ofSingle cs).folded := by
  cases hl : Operator.leading? cs with
  | some r =>
    simp only [ofSingle, Operator.leading?_folded, hl, Option.map_some]
    exact congrArg (single r.1) (Value.ofChars_folded r.2)
  | none =>
    have hfolded : Operator.leading? (Text.folded cs) = none := by
      rw [Operator.leading?_folded, hl, Option.map_none]
    by_cases hneg : ∃ c rest, cs = '!' :: c :: rest
    · obtain ⟨c, rest, rfl⟩ := hneg
      rw [ofSingle_negation hl]
      exact (ofSingle_negation hfolded).trans
        (congrArg (single .notEqual) (Value.ofChars_folded (c :: rest)))
    · have hbare (rest : List Char) (h : cs = '!' :: rest) : rest = [] := by
        cases rest with
        | nil => rfl
        | cons c r => exact absurd ⟨c, r, h⟩ hneg
      have hbare' (rest : List Char) (h : Text.folded cs = '!' :: rest) : rest = [] := by
        obtain ⟨r, rfl, rfl⟩ := exists_of_folded_eq_cons (by decide) h
        rw [hbare r rfl]
        rfl
      rw [ofSingle_bare hl hbare, ofSingle_bare hfolded hbare', Value.ofChars_folded]
      rfl

theorem ofChars_folded (text : List Char) : ofChars (Text.folded text) = (ofChars text).folded := by
  simp only [ofChars, trim_folded, isEmpty_folded, range?_folded, ofSingle_folded]
  split
  · rfl
  cases hr : range? (trim text) with
  | none => rfl
  | some c =>
    obtain ⟨p, _, rfl⟩ := RangeText.exists_spells hr
    rfl

/-- Parsing sees the letters of a text up to case: the form, the operators and the bounds are the
same, and so is the reference unless it is a text. -/
theorem folded_parse_eq {e e' : String} (h : sameAscii e.toList e'.toList = true) :
    (parse e).folded = (parse e').folded := by
  rw [parse, parse, ← ofChars_folded, ← ofChars_folded, sameAscii_iff.mp h]

theorem accepts_folded (c : Criterion) (v : Value) : c.folded.accepts v.folded = c.accepts v := by
  cases c with
  | single op reference => exact Value.satisfies_folded v op reference
  | range lower upper =>
    simp only [folded, accepts, Value.isPresent_folded, Value.toSingle_folded]

end Criterion

namespace Value

/-- Two inputs that are the same, or texts that differ in the case of ASCII letters alone. -/
inductive SameButCase : Value → Value → Prop where
  | same (v : Value) : SameButCase v v
  | texts {s t : String} (h : sameAscii s.toList t.toList = true) : SameButCase (text s) (text t)

theorem SameButCase.folded_eq {v w : Value} (h : SameButCase v w) : v.folded = w.folded := by
  cases h with
  | same => rfl
  | texts h => rw [folded, folded, sameAscii_iff.mp h]

end Value

namespace Criterion

/-- Evaluation is blind to the case of ASCII letters, in the expression and in the input. -/
theorem accepts_of_sameButCase {e e' : String} {v v' : Value}
    (he : sameAscii e.toList e'.toList = true) (hv : v.SameButCase v') :
    (parse e).accepts v = (parse e').accepts v' := by
  calc (parse e).accepts v = (parse e).folded.accepts v.folded := (accepts_folded _ _).symm
    _ = (parse e').folded.accepts v'.folded := by rw [folded_parse_eq he, hv.folded_eq]
    _ = (parse e').accepts v' := accepts_folded _ _

/-- Capitals in a slot, in the exponent of a bound and in the input. -/
theorem capitals_keep_verdict :
    (sameAscii "2<=X<1E1".toList "2<=x<1e1".toList = true ∧
      Value.SameButCase (.text "5E0") (.text "5e0")) ∧
    (parse "2<=X<1E1").accepts (.text "5E0") = (parse "2<=x<1e1").accepts (.text "5e0") ∧
    (parse "2<=x<1e1").accepts (.text "5e0") = true := by
  have he : sameAscii "2<=X<1E1".toList "2<=x<1e1".toList = true := by decide
  have hv : Value.SameButCase (.text "5E0") (.text "5e0") := .texts (by decide)
  exact ⟨⟨he, hv⟩, accepts_of_sameButCase he hv, by decide⟩

end Criterion
end Criteria
