import Mathlib.Data.List.Basic
import Criteria.Decimal.Layout
import Criteria.Decimal.Literal.Reading
import Criteria.Proofs.DecimalRounding

/-!
# Shortest digits are read back

The search for the shortest decimal accepts only what is read back, so its result is read back
whatever grid it stops on. Laying the digits out around a point or an exponent keeps their value.
-/

namespace Criteria
set_option autoImplicit false

theorem Binary.ofRank_inj {f : Format} {s : Bool} {r t : Nat} (ht : t < f.top)
    (h : (ofRank s r : Binary f) = ofRank s t) : r = t := by
  by_cases hr : r < f.top
  · simp only [ofRank, dif_pos hr, dif_pos ht, Binary.finite.injEq, Fin.mk.injEq, true_and] at h
    exact h
  · simp [ofRank, dif_neg hr, dif_pos ht] at h

namespace Shortest
variable {f : Format}

/-- A decimal without a sign that is read as the magnitude of a rank. -/
structure ReadsAs (f : Format) (rank : Nat) (d : Decimal) : Prop where
  unsigned : d.negative = false
  reads : d.toBinary f = .ofRank false rank

theorem onGrid?_readsAs {tie : Tie} {rank drop : Nat} {d : Decimal}
    (h : onGrid? f tie rank drop = some d) : ReadsAs f rank d := by
  simp only [onGrid?] at h
  split at h
  · next hc =>
    obtain rfl := Option.some.inj h
    rw [Bool.and_eq_true] at hc
    exact ⟨rfl, by simpa [readsBack] using hc.1⟩
  split at h
  · next hc =>
    obtain rfl := Option.some.inj h
    exact ⟨rfl, by simpa [readsBack] using hc⟩
  · simp at h

theorem expanded_readsAs (hf : 0 < f.fractionBits) (rank : Nat) :
    ReadsAs f rank ⟨false, expanded f rank, -f.fineness⟩ := by
  refine ⟨rfl, ?_⟩
  rw [Decimal.toBinary_eq_ofUnits hf, Binary.ofUnits]
  congr 1
  have hten : 5 ^ f.fineness * f.one = 10 ^ f.fineness := (Nat.mul_pow 5 2 f.fineness).symm
  have hnum : (Decimal.numerator f ⟨false, expanded f rank, -f.fineness⟩) =
      f.units rank * 10 ^ f.fineness := by
    have he : (-(f.fineness : Int)).toNat = 0 := by omega
    rw [Decimal.numerator, he, Nat.pow_zero, Nat.mul_one, expanded, Nat.mul_assoc, hten]
  have hden : (Decimal.denominator ⟨false, expanded f rank, -f.fineness⟩) = 10 ^ f.fineness := by
    rw [Decimal.denominator, Int.neg_neg, Int.toNat_natCast]
  rw [hnum, hden]
  exact f.nearestRank_units rank (Nat.pow_pos (by omega))

theorem decimal_readsAs (hf : 0 < f.fractionBits) (tie : Tie) (rank : Nat) :
    ReadsAs f rank (decimal f tie rank) := by
  unfold decimal
  simp only
  cases h : (List.range (Nat.toDigits 10 (expanded f rank)).length).reverse.findSome?
      (onGrid? f tie rank) with
  | none => exact expanded_readsAs hf rank
  | some d =>
    obtain ⟨drop, _, hd⟩ := List.exists_of_findSome?_eq_some h
    exact onGrid?_readsAs hd

theorem ReadsAs.digits_ne_zero {rank : Nat} {d : Decimal} (h : ReadsAs f rank d)
    (pos : rank ≠ 0) (hr : rank < f.top) : d.digits ≠ 0 := by
  intro hd
  have hz : d.toBinary f = .ofRank false 0 := by
    rw [Decimal.toBinary, if_pos hd, h.unsigned, Binary.zero]
  exact pos (Binary.ofRank_inj hr (hz.symm.trans h.reads)).symm

theorem ReadsAs.signed (hf : 0 < f.fractionBits) {rank : Nat} {d : Decimal} (h : ReadsAs f rank d)
    (hr : rank < f.top) (s : Bool) :
    (Decimal.mk s d.digits d.exponent).toBinary f = .ofRank s rank := by
  have hd := h.reads
  rw [Decimal.toBinary_eq_ofUnits hf, h.unsigned] at hd
  rw [Decimal.toBinary_eq_ofUnits hf]
  exact congrArg (Binary.ofRank s) (Binary.ofRank_inj hr hd)

end Shortest

namespace Layout

theorem exists_significant (ds : List Char) : ∃ k, ds = significant ds ++ zeros k := by
  have h := List.takeWhile_append_dropWhile (p := (· == '0')) (l := ds.reverse)
  have hz : ds.reverse.takeWhile (· == '0') =
      List.replicate (ds.reverse.takeWhile (· == '0')).length '0' := by
    apply List.eq_replicate_of_mem
    intro c hc
    simpa using List.all_eq_true.mp List.all_takeWhile c hc
  refine ⟨(ds.reverse.takeWhile (· == '0')).length, ?_⟩
  have := congrArg List.reverse h
  rw [List.reverse_append, List.reverse_reverse, hz, List.reverse_replicate] at this
  exact this.symm

theorem significant_all {ds : List Char} (h : ds.all Char.isDigit) :
    (significant ds).all Char.isDigit := by
  obtain ⟨k, hk⟩ := exists_significant ds
  rw [hk, List.all_append, Bool.and_eq_true] at h
  exact h.1

theorem ofDigitChars_zeros (ds : List Char) (k : Nat) :
    Nat.ofDigitChars 10 (ds ++ zeros k) 0 = Nat.ofDigitChars 10 ds 0 * 10 ^ k := by
  rw [Nat.ofDigitChars_append, zeros, Nat.ofDigitChars_replicate_zero, Nat.mul_comm]

theorem toDigits_all (n : Nat) : (Nat.toDigits 10 n).all Char.isDigit := by
  rw [List.all_eq_true]
  intro c hc
  exact Nat.isDigit_of_mem_toDigits (by decide) (by decide) hc

theorem zeros_all (k : Nat) : (zeros k).all Char.isDigit := by
  simp [zeros, List.all_replicate]

theorem decimal_of_zeros {l : Literal} {ds : List Char} {j k : Nat} {e : Int}
    (digits : l.whole ++ l.fraction.getD [] = zeros j ++ (ds ++ zeros k))
    (exponent : l.exponent.elim 0 Exponent.value - (l.fraction.getD []).length = e - k) :
    l.decimal = (Decimal.mk l.isNegative (Nat.ofDigitChars 10 ds 0) e).padded k := by
  have hdigits : Nat.ofDigitChars 10 (l.whole ++ l.fraction.getD []) 0 =
      Nat.ofDigitChars 10 ds 0 * 10 ^ k := by
    have hz : Nat.ofDigitChars 10 (zeros j) 0 = 0 := by
      rw [zeros, Nat.ofDigitChars_replicate_zero, Nat.mul_zero]
    rw [digits, Nat.ofDigitChars_append, hz, ofDigitChars_zeros]
  simp only [Literal.decimal, hdigits, exponent, Decimal.padded]

theorem positional_decimal (sign : Option Sign) (ds : List Char) (place : Int) :
    ∃ k, (positional sign ds place).decimal =
      (Decimal.mk (sign == some .minus) (Nat.ofDigitChars 10 ds 0)
        (place + 1 - ds.length)).padded k := by
  cases place with
  | ofNat n =>
    rcases Nat.lt_or_ge (n + 1) ds.length with h | h
    · -- The point falls between two digits.
      have hdrop : (ds.drop (n + 1)).isEmpty = false := by
        rw [List.isEmpty_eq_false_iff, ne_eq, List.drop_eq_nil_iff]
        omega
      refine ⟨0, decimal_of_zeros (j := 0) ?_ ?_⟩
      · have hz : n + 1 - ds.length = 0 := by omega
        simp [positional, hdrop, hz, zeros]
      · simp only [positional, hdrop, Option.elim_none, Option.getD_some, List.length_drop,
          Bool.false_eq_true, if_false, Int.ofNat_eq_natCast]
        omega
    · refine ⟨n + 2 - ds.length, decimal_of_zeros (j := 0) ?_ ?_⟩
      · have hsucc : n + 2 - ds.length = n + 1 - ds.length + 1 := by omega
        simp [positional, List.take_of_length_le h, List.drop_eq_nil_of_le h, hsucc, zeros,
          List.replicate_succ']
      · simp only [positional, List.drop_eq_nil_of_le h, Option.elim_none, Option.getD_some,
          List.isEmpty_nil, if_true, List.length_singleton, Int.ofNat_eq_natCast]
        omega
  | negSucc k =>
    refine ⟨0, decimal_of_zeros (j := k + 1) ?_ ?_⟩
    · simp [positional, zeros, List.replicate_succ]
    · simp only [positional, Option.elim_none, Option.getD_some, List.length_append, zeros,
        List.length_replicate]
      omega

theorem exponent_value (signed : Bool) (place : Int) :
    Exponent.value ⟨'e', if place < 0 then some .minus else if signed then some .plus else none,
      Nat.toDigits 10 place.natAbs⟩ = place := by
  simp only [Exponent.value, Nat.ofDigitChars_ten_toDigits]
  by_cases h : place < 0
  · rw [if_pos h, if_pos rfl]
    omega
  · have hs : (if signed then some Sign.plus else none) ≠ some Sign.minus := by
      cases signed <;> simp
    simp only [if_neg h, if_neg hs]
    omega

theorem scientific_fraction (signed : Bool) (sign : Option Sign) (ds : List Char) (place : Int) :
    (scientific signed sign ds place).fraction.getD [] = ds.drop 1 := by
  simp only [scientific]
  split
  · next h => exact (List.isEmpty_iff.mp h).symm
  · rfl

theorem scientific_decimal (signed : Bool) (sign : Option Sign) {ds : List Char} (hd : ds ≠ [])
    (place : Int) : (scientific signed sign ds place).decimal =
      (Decimal.mk (sign == some .minus) (Nat.ofDigitChars 10 ds 0)
        (place + 1 - ds.length)).padded 0 := by
  have hlen : 0 < ds.length := List.length_pos_iff.mpr hd
  refine decimal_of_zeros (j := 0) ?_ ?_
  · rw [scientific_fraction]
    simpa [scientific, zeros] using List.take_append_drop 1 ds
  · rw [scientific_fraction]
    simp only [scientific, Option.elim_some, exponent_value, List.length_drop]
    omega

variable {f : Format}

theorem head?_toDigits {n : Nat} (h : n ≠ 0) : (Nat.toDigits 10 n).head? ≠ some '0' := by
  induction n using Nat.base_induction 10 (by decide) with
  | single m hm => simpa [Nat.toDigits_of_lt_base hm] using h
  | digit m k hk hm ih =>
    rw [← Nat.toDigits_append_toDigits (by decide) hm hk, List.head?_append_of_ne_nil _ (by simp)]
    exact ih (Nat.ne_of_gt hm)

/-- Digits, the first of them standing for ten to the `place`, that spell a decimal without needless
zeros in front. -/
structure Spells (ds : List Char) (place : Int) (d : Decimal) : Prop where
  nonempty : ds ≠ []
  digits : ds.all Char.isDigit
  head : ds.head? ≠ some '0'
  value : ∃ k, (Decimal.mk d.negative (Nat.ofDigitChars 10 ds 0) (place + 1 - ds.length)).padded k = d

/-- The zeros cut off are made up for by the exponent. -/
theorem significant_spells {d : Decimal} (hd : d.digits ≠ 0) :
    Spells (significant (Nat.toDigits 10 d.digits))
      (d.exponent + (Nat.toDigits 10 d.digits).length - 1) d := by
  obtain ⟨k, hk⟩ := exists_significant (Nat.toDigits 10 d.digits)
  have hvalue := Nat.ofDigitChars_ten_toDigits (n := d.digits)
  rw [hk, ofDigitChars_zeros] at hvalue
  have hlen := congrArg List.length hk
  rw [List.length_append, zeros, List.length_replicate] at hlen
  have hne : significant (Nat.toDigits 10 d.digits) ≠ [] := by
    intro hnil
    rw [hnil, Nat.ofDigitChars_nil, Nat.zero_mul] at hvalue
    exact hd hvalue.symm
  refine ⟨hne, significant_all (toDigits_all _), ?_, k, ?_⟩
  · have hhead := head?_toDigits hd
    rwa [hk, List.head?_append_of_ne_nil _ hne] at hhead
  · rw [Decimal.padded, hvalue]
    have hexp : d.exponent + (Nat.toDigits 10 d.digits).length - 1 + 1 -
        (significant (Nat.toDigits 10 d.digits)).length - k = d.exponent := by omega
    rw [hexp]

theorem positional_wellFormed (sign : Option Sign) {ds : List Char} (hd : ds.all Char.isDigit)
    (place : Int) : (positional sign ds place).WellFormed := by
  cases place with
  | ofNat n =>
    have hsplit := hd
    rw [← List.take_append_drop (n + 1) ds, List.all_append, Bool.and_eq_true] at hsplit
    refine ⟨?_, ?_, .inr ?_, ?_⟩
    · simp only [positional, List.all_append, hsplit.1, zeros_all, Bool.and_self]
    · simp only [positional, Option.getD_some]
      split
      · rfl
      · exact hsplit.2
    · simp only [positional, Option.getD_some]
      split
      · simp
      · next h => simpa using h
    · simp [positional]
  | negSucc k =>
    refine ⟨rfl, ?_, .inl ?_, ?_⟩
    · simp only [positional, Option.getD_some, List.all_append, zeros_all, hd, Bool.and_self]
    · simp [positional]
    · simp [positional]

theorem scientific_wellFormed (signed : Bool) (sign : Option Sign) {ds : List Char}
    (hne : ds ≠ []) (hd : ds.all Char.isDigit) (place : Int) :
    (scientific signed sign ds place).WellFormed := by
  have hsplit := hd
  rw [← List.take_append_drop 1 ds, List.all_append, Bool.and_eq_true] at hsplit
  refine ⟨hsplit.1, ?_, .inl ?_, ?_⟩
  · rw [scientific_fraction]
    exact hsplit.2
  · simpa [scientific] using hne
  · intro e he
    simp only [scientific, Option.mem_some_iff] at he
    subst he
    exact ⟨rfl, Nat.toDigits_ne_nil, toDigits_all _⟩

/-- What a layout can write for a magnitude: zero, or the digits of its shortest decimal. -/
theorem literal_shape (l : Layout) (hf : 0 < f.fractionBits) (s : Bool) {rank : Nat}
    (hr : rank < f.top) :
    (rank = 0 ∧ l.literal f s rank =
      ⟨if s then some .minus else none, ['0'], some ['0'], none⟩) ∨
    ∃ ds place, Spells ds place { Shortest.decimal f l.tie rank with negative := s } ∧
      (l.literal f s rank = positional (if s then some .minus else none) ds place ∨
        l.literal f s rank = scientific l.signed (if s then some .minus else none) ds place) := by
  unfold literal
  by_cases h0 : rank = 0
  · exact .inl ⟨h0, by simp only [if_pos h0]⟩
  right
  simp only [if_neg h0]
  have hread := Shortest.decimal_readsAs hf l.tie rank
  generalize Shortest.decimal f l.tie rank = d at hread ⊢
  have hd : ({ d with negative := s } : Decimal).digits ≠ 0 := hread.digits_ne_zero h0 hr
  refine ⟨_, _, significant_spells hd, ?_⟩
  split
  · exact .inl rfl
  · exact .inr rfl

theorem sign_beq (s : Bool) : ((if s then some Sign.minus else none) == some Sign.minus) = s := by
  cases s <;> rfl

/-- However the digits are laid out, they and the shortest decimal are one decimal, padded. -/
theorem exists_literal_padded (l : Layout) (hf : 0 < f.fractionBits) (s : Bool) {rank : Nat}
    (hr : rank < f.top) (h0 : rank ≠ 0) : ∃ d j k, (l.literal f s rank).decimal = Decimal.padded d j ∧
      ({ Shortest.decimal f l.tie rank with negative := s } : Decimal) = d.padded k := by
  rcases literal_shape l hf s hr with ⟨hzero, _⟩ | ⟨ds, place, spells, h⟩
  · exact absurd hzero h0
  obtain ⟨k, hk⟩ := spells.value
  rcases h with h | h
  · obtain ⟨j, hj⟩ := positional_decimal (if s then some .minus else none) ds place
    rw [sign_beq] at hj
    exact ⟨_, j, k, h ▸ hj, hk.symm⟩
  · have hj := scientific_decimal l.signed (if s then some .minus else none) spells.nonempty place
    rw [sign_beq] at hj
    exact ⟨_, 0, k, h ▸ hj, hk.symm⟩

/-- Every layout is read back as the magnitude it was made of. -/
theorem literal_toBinary (l : Layout) (hf : 0 < f.fractionBits) (s : Bool) {rank : Nat}
    (hr : rank < f.top) : (l.literal f s rank).decimal.toBinary f = .ofRank s rank := by
  by_cases h0 : rank = 0
  · subst h0
    cases s <;> rfl
  · obtain ⟨d, j, k, hlaid, hshortest⟩ := exists_literal_padded l hf s hr h0
    have hread := (Shortest.decimal_readsAs hf l.tie rank).signed hf hr s
    rw [hshortest, Decimal.toBinary_padded hf] at hread
    rw [hlaid, Decimal.toBinary_padded hf, hread]

theorem literal_wellFormed (l : Layout) (hf : 0 < f.fractionBits) (s : Bool) {rank : Nat}
    (hr : rank < f.top) : (l.literal f s rank).WellFormed := by
  rcases literal_shape l hf s hr with ⟨_, h⟩ | ⟨ds, place, spells, h | h⟩ <;> rw [h]
  · exact ⟨rfl, rfl, .inl (by simp), by simp⟩
  · exact positional_wellFormed _ spells.digits place
  · exact scientific_wellFormed _ _ spells.nonempty spells.digits place

/-- A float is never laid out as an integer: it has a point or an exponent. -/
theorem literal_integer? (l : Layout) (hf : 0 < f.fractionBits) (s : Bool) {rank : Nat}
    (hr : rank < f.top) : (l.literal f s rank).integer? = none := by
  rcases literal_shape l hf s hr with ⟨_, h⟩ | ⟨ds, place, _, h | h⟩ <;> rw [h]
  · rfl
  · cases place <;> rfl
  · simp [Literal.integer?, scientific]

end Layout
end Criteria
