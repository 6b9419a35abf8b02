import Criteria.Json.Scalar
import Criteria.Proofs.Inference
import Criteria.Proofs.ShortestSearch

/-!
# What is relied on about JSON

How a scalar is written and read is not settled here but by JSON and by the library that is used for
it. What the results about JSON need of a writer and a reader is stated of any two of them: the words
and texts come back, integers of 64 bits are taken as they are, and a float is written in shortest
digits and read as the nearest double. The writer and the reader at hand do so.
-/

namespace Criteria.Json
set_option autoImplicit false

/-- A JSON number with a point or an exponent. -/
structure IsFloat (l : Literal) : Prop where
  wellFormed : l.WellFormed
  number : isNumber l = true
  integer? : l.integer? = none

structure IsCodec (write : Scalar .single → List Char)
    (read : List Char → Option (Scalar .double)) : Prop where
  null : read (write .null) = some .null
  boolean : ∀ b, read (write (.boolean b)) = some (.boolean b)
  /-- Whatever is escaped in a text is restored. -/
  text : ∀ s, read (write (.text s)) = some (.text s)
  digits : ∀ n, write (.integer n) = (Literal.ofInt n).chars
  integer : ∀ n, -2 ^ 63 ≤ n → n < 2 ^ 64 → read (Literal.ofInt n).chars = some (.integer n)
  shortest : ∀ x : Single, x.isFinite = true →
    ∃ l, write (.float x) = l.chars ∧ IsFloat l ∧ x.IsShortest l.decimal
  nonFinite : ∀ x : Single, x.isFinite = false → write (.float x) = write .null
  /-- What a decimal is read as is the nearest double: `Decimal.isNearest_toBinary`. -/
  nearest : ∀ l, IsFloat l → (l.decimal.toBinary .double).isFinite = true →
    read l.chars = some (.float (l.decimal.toBinary .double))

section Numbers

theorem isSpace_of_isNumeral {c : Char} (h : isNumeral c = true) : isSpace c = false := by
  have hblank := isNumeral_not_blank h
  simp only [isSpace, Bool.or_eq_false_iff, beq_eq_false_iff_ne]
  refine ⟨⟨⟨?_, ?_⟩, ?_⟩, ?_⟩ <;> rintro rfl <;> exact absurd hblank (by decide)

theorem unspaced_plain {cs : List Char} (h : ∀ c ∈ cs, isSpace c = false) : unspaced cs = cs := by
  have hdrop {ds : List Char} (hd : ∀ c ∈ ds, isSpace c = false) : ds.dropWhile isSpace = ds := by
    cases ds with
    | nil => rfl
    | cons c r => simp [hd c List.mem_cons_self]
  rw [unspaced, hdrop h, hdrop (by simpa using h), List.reverse_reverse]

theorem isNumber_of_parts {l : Literal} (sign : l.sign ≠ some .plus) (whole : l.whole ≠ [])
    (fraction : l.fraction ≠ some []) (head : l.whole.head? ≠ some '0' ∨ l.whole.length = 1) :
    isNumber l = true := by
  simp [isNumber, sign, whole, fraction, head]

/-- Decimal digits without needless zeros are a JSON number. -/
theorem isNumber_ofInt (n : Int) : isNumber (.ofInt n) = true := by
  apply isNumber_of_parts
  · simp only [Literal.ofInt]
    split <;> simp
  · exact Nat.toDigits_ne_nil
  · simp [Literal.ofInt]
  · by_cases hn : n.natAbs = 0
    · exact .inr (by simp [Literal.ofInt, hn, Nat.toDigits_zero])
    · exact .inl (Layout.head?_toDigits hn)

theorem integer?_ofInt {n : Int} (low : -2 ^ 63 ≤ n) (high : n < 2 ^ 64) :
    integer? (.ofInt n) = some n := by
  have hzero : n = 0 → (Literal.ofInt n).sign = none := by
    rintro rfl
    rfl
  rw [integer?, Literal.integer?_ofInt, Option.bind_some, if_pos ⟨low, high, hzero⟩]

/-- What is laid out for a float is a JSON number. -/
theorem isNumber_literal {f : Format} (l : Layout) (hf : 0 < f.fractionBits) (s : Bool) {rank : Nat}
    (hr : rank < f.top) : isNumber (l.literal f s rank) = true := by
  have hsign : (if s then some Sign.minus else none) ≠ some Sign.plus := by cases s <;> simp
  rcases Layout.literal_shape l hf s hr with ⟨_, h⟩ | ⟨ds, place, spells, h⟩
  · rw [h]
    exact isNumber_of_parts hsign (by simp) (by simp) (.inr rfl)
  obtain ⟨c, r, rfl⟩ := List.exists_cons_of_ne_nil spells.nonempty
  have hfraction : (if r.isEmpty then none else some r) ≠ some [] := by cases r <;> simp
  rcases h with h | h <;> rw [h]
  · cases place with
    | ofNat n =>
      refine isNumber_of_parts hsign (by simp [Layout.positional]) ?_ (.inl ?_)
      · simp only [Layout.positional]
        split
        · simp
        · next hne => simpa using hne
      · exact spells.head
    | negSucc k =>
      exact isNumber_of_parts hsign (by simp [Layout.positional]) (by simp [Layout.positional])
        (.inr rfl)
  · exact isNumber_of_parts hsign (by simp [Layout.scientific]) hfraction (.inr rfl)

theorem isFloat_literal {f : Format} (l : Layout) (hf : 0 < f.fractionBits) (s : Bool) {rank : Nat}
    (hr : rank < f.top) : IsFloat (l.literal f s rank) where
  wellFormed := Layout.literal_wellFormed l hf s hr
  number := isNumber_literal l hf s hr
  integer? := Layout.literal_integer? l hf s hr

end Numbers

namespace Scalar

/-- A literal is none of the words of JSON and no quoted text. -/
theorem ofChars?_literal {l : Literal} (h : l.WellFormed) : ofChars? l.chars = ofLiteral? l := by
  have hnumeral := h.chars_numeral
  have hspace : unspaced l.chars = l.chars :=
    unspaced_plain fun c hc => isSpace_of_isNumeral (hnumeral c hc)
  have hword {w : List Char} {c : Char} (hc : c ∈ w) (hno : isNumeral c = false) : l.chars ≠ w := by
    rintro rfl
    exact Bool.eq_false_iff.mp hno (hnumeral c hc)
  have hquoted : Text.Quoted.decode? l.chars = none := by
    unfold Text.Quoted.decode?
    split
    · next r hr => exact absurd rfl (hr ▸ hword (c := '"') List.mem_cons_self (by decide))
    · rfl
  have hnull : l.chars ≠ nullChars := hword (c := 'n') List.mem_cons_self (by decide)
  have htrue : l.chars ≠ boolChars true := hword (c := 't') List.mem_cons_self (by decide)
  have hfalse : l.chars ≠ boolChars false := hword (c := 'f') List.mem_cons_self (by decide)
  simp only [ofChars?, hspace, if_neg hnull, if_neg htrue, if_neg hfalse, hquoted,
    Literal.scan?_chars h, Option.bind_some]

theorem ofChars?_encode (cs : List Char) :
    ofChars? (Text.Quoted.encode cs) = some (text (String.ofList cs)) := by
  -- No word of JSON begins with a quote.
  have hnull : Text.Quoted.encode cs ≠ nullChars := by simp [Text.Quoted.encode, nullChars]
  have htrue : Text.Quoted.encode cs ≠ boolChars true := by simp [Text.Quoted.encode, boolChars]
  have hfalse : Text.Quoted.encode cs ≠ boolChars false := by simp [Text.Quoted.encode, boolChars]
  simp only [ofChars?, unspaced_encode, if_neg hnull, if_neg htrue, if_neg hfalse,
    Text.Quoted.decode?_encode]

end Scalar

theorem isCodec : IsCodec Scalar.chars Scalar.ofChars? where
  null := by decide
  boolean := by decide
  text s := by rw [Scalar.chars, Scalar.ofChars?_encode, String.ofList_toList]
  digits _ := rfl
  integer n low high := by
    rw [Scalar.ofChars?_literal (Literal.ofInt_wellFormed n)]
    simp only [Scalar.ofLiteral?, isNumber_ofInt, integer?_ofInt low high, if_true]
  shortest x hx := by
    cases x with
    | nan | infinite => exact nomatch hx
    | finite s r =>
      have hf : 0 < Format.single.fractionBits := by decide
      have hshortest := Layout.json.literal_isShortest hf s r.isLt
      rw [Binary.ofRank_val] at hshortest
      exact ⟨_, rfl, isFloat_literal .json hf s r.isLt, hshortest⟩
  nonFinite x hx := by
    cases x with
    | nan | infinite => rfl
    | finite => exact nomatch hx
  nearest l hl hfinite := by
    rw [Scalar.ofChars?_literal hl.wellFormed]
    simp only [Scalar.ofLiteral?, hl.number, integer?, hl.integer?, Option.bind_none, hfinite,
      if_true]

end Criteria.Json
