import Criteria.Proofs.ShortestDigits

/-!
# The search finds a shortest decimal

The search goes from the coarsest grid on. A grid on which a neighbour of the magnitude is read as the
magnitude ends it, so there is no decimal with fewer digits, and of the two neighbours the nearer one
is taken. However the digits are laid out, they are a shortest decimal.
-/

namespace Criteria
set_option autoImplicit false

namespace Tie
variable {tie : Tie} {lower twice distance : Nat}

theorem twice_le (h : tie.takesLower lower twice distance = true) : twice ≤ distance := by
  simp only [takesLower, Bool.or_eq_true, Bool.and_eq_true, decide_eq_true_eq, beq_iff_eq] at h
  omega

theorem le_twice (h : tie.takesLower lower twice distance = false) : distance ≤ twice := by
  simp only [takesLower, Bool.or_eq_false_iff, decide_eq_false_iff_not] at h
  omega

end Tie

namespace Shortest
variable {f : Format} {rank : Nat}

/-- The point of a grid that is taken for a magnitude: a neighbour that is read as it, the nearer one
if both are. -/
inductive Chosen (f : Format) (rank drop : Nat) : Nat → Prop
  | lower
    (reads : Reads f rank (below f rank drop) drop)
    (near : Reads f rank (below f rank drop + 1) drop →
      2 * (expanded f rank % 10 ^ drop) ≤ 10 ^ drop) :
    Chosen f rank drop (below f rank drop)
  | upper
    (reads : Reads f rank (below f rank drop + 1) drop)
    (near : Reads f rank (below f rank drop) drop →
      10 ^ drop ≤ 2 * (expanded f rank % 10 ^ drop)) :
    Chosen f rank drop (below f rank drop + 1)

section Grid
variable {tie : Tie} {drop k : Nat}

theorem Chosen.reads (h : Chosen f rank drop k) :
    Reads f rank k drop := by
  cases h with
  | lower reads _ => exact reads
  | upper reads _ => exact reads

theorem Chosen.le (h : Chosen f rank drop k) : k ≤ below f rank drop + 1 := by
  cases h with
  | lower => exact Nat.le_succ _
  | upper => exact Nat.le_refl _

/-- What a neighbour is nearer than, the chosen one is nearer than. -/
theorem Chosen.abs_sub_le (h : Chosen f rank drop k) {v : ℚ}
    (hv : Reads f rank (below f rank drop) drop ∧
        v ≤ (below f rank drop * 10 ^ drop : Nat) ∨
      Reads f rank (below f rank drop + 1) drop ∧
        ((below f rank drop + 1) * 10 ^ drop : Nat) ≤ v) :
    |((k * 10 ^ drop : Nat) : ℚ) - expanded f rank| ≤ |v - expanded f rank| := by
  have hsplit : (expanded f rank : ℚ) = (below f rank drop * 10 ^ drop : Nat) +
      (expanded f rank % 10 ^ drop : Nat) := by
    exact_mod_cast (below_mul_add f rank drop).symm
  have hsucc : (((below f rank drop + 1) * 10 ^ drop : Nat) : ℚ) =
      (below f rank drop * 10 ^ drop : Nat) + (10 ^ drop : Nat) := by
    exact_mod_cast Nat.succ_mul (below f rank drop) (10 ^ drop)
  have hrest : ((expanded f rank % 10 ^ drop : Nat) : ℚ) < (10 ^ drop : Nat) :=
    Nat.cast_lt.mpr (mod_lt f rank drop)
  have hrest' : (0 : ℚ) ≤ (expanded f rank % 10 ^ drop : Nat) := Nat.cast_nonneg _
  rw [hsucc] at hv
  cases h with
  | lower reads near =>
    rw [abs_sub_comm, hsplit, add_sub_cancel_left, abs_of_nonneg hrest']
    rcases hv with ⟨_, hv⟩ | ⟨habove, hv⟩
    · exact le_abs.mpr (.inr (by linarith))
    · have hnear : 2 * ((expanded f rank % 10 ^ drop : Nat) : ℚ) ≤ (10 ^ drop : Nat) := by
        exact_mod_cast near habove
      exact le_abs.mpr (.inl (by linarith))
  | upper reads near =>
    rw [hsucc, hsplit, add_sub_add_left_eq_sub, abs_of_nonneg (by linarith)]
    rcases hv with ⟨hlower, hv⟩ | ⟨_, hv⟩
    · have hnear : ((10 ^ drop : Nat) : ℚ) ≤ 2 * (expanded f rank % 10 ^ drop : Nat) := by
        exact_mod_cast near hlower
      exact le_abs.mpr (.inr (by linarith))
    · exact le_abs.mpr (.inl (by linarith))

theorem readsBack_iff (hf : 0 < f.fractionBits) (hr : rank < f.top) (k drop : Nat) :
    readsBack f rank k ((drop : Int) - f.fineness) = true ↔
      Reads f rank k drop := by
  rw [readsBack, beq_iff_eq]
  have hreads := Decimal.toBinary_eq_ofRank_iff (d := .onGrid f false k drop) hf (s := false) hr
  exact hreads.trans (and_iff_right rfl)

theorem onGrid?_eq (f : Format) (tie : Tie) (rank drop : Nat) : onGrid? f tie rank drop =
    if readsBack f rank (below f rank drop) ((drop : Int) - f.fineness) &&
        (!readsBack f rank (below f rank drop + 1) ((drop : Int) - f.fineness) ||
          tie.takesLower (below f rank drop) (2 * (expanded f rank % 10 ^ drop)) (10 ^ drop)) then
      some (.onGrid f false (below f rank drop) drop)
    else if readsBack f rank (below f rank drop + 1) ((drop : Int) - f.fineness) then
      some (.onGrid f false (below f rank drop + 1) drop)
    else none := rfl

theorem onGrid?_chosen (hf : 0 < f.fractionBits) (hr : rank < f.top) {d : Decimal}
    (h : onGrid? f tie rank drop = some d) :
    ∃ k, d = .onGrid f false k drop ∧ Chosen f rank drop k := by
  have hlower := readsBack_iff hf hr (below f rank drop) drop
  have habove := readsBack_iff hf hr (below f rank drop + 1) drop
  rw [onGrid?_eq] at h
  split at h
  · next hc =>
    obtain rfl := Option.some.inj h
    simp only [Bool.and_eq_true, Bool.or_eq_true, Bool.not_eq_true', ← Bool.not_eq_true] at hc
    refine ⟨_, rfl, .lower (hlower.mp hc.1) fun hreads => ?_⟩
    exact Tie.twice_le (hc.2.resolve_left (not_not_intro (habove.mpr hreads)))
  split at h
  · next hc hreads =>
    obtain rfl := Option.some.inj h
    refine ⟨_, rfl, .upper (habove.mp hreads) fun hlow => ?_⟩
    apply Tie.le_twice
    simpa [hlower.mpr hlow, hreads] using hc
  · simp at h

/-- A grid on which a neighbour is read as a magnitude holds a decimal of it. -/
theorem onGrid?_ne_none (hf : 0 < f.fractionBits) (hr : rank < f.top)
    (h : Reads f rank (below f rank drop) drop ∨
      Reads f rank (below f rank drop + 1) drop) :
    onGrid? f tie rank drop ≠ none := by
  rw [← readsBack_iff hf hr, ← readsBack_iff hf hr] at h
  rw [onGrid?_eq]
  rcases h with hlow | habove
  · by_cases habove : readsBack f rank (below f rank drop + 1) (drop - f.fineness) = true
    · simp only [habove, if_true]
      split <;> exact Option.some_ne_none _
    · simp [hlow, habove]
  · simp only [habove, if_true]
    split <;> exact Option.some_ne_none _

end Grid

/-- What a search from the end of a range finds is the last. -/
theorem of_findSome?_reverse_range {α : Type} {g : Nat → Option α} {n : Nat} {a : α}
    (h : (List.range n).reverse.findSome? g = some a) :
    ∃ i < n, g i = some a ∧ ∀ j, i < j → j < n → g j = none := by
  obtain ⟨before, i, after, hsplit, hi, hnone⟩ := List.findSome?_eq_some_iff.mp h
  have hmem (j : Nat) : j < n ↔ j ∈ before ++ i :: after := by
    rw [← hsplit, List.mem_reverse, List.mem_range]
  have hsorted : (before ++ i :: after).Pairwise (fun j k => k < j) := by
    rw [← hsplit, List.pairwise_reverse]
    exact List.pairwise_lt_range
  rw [List.pairwise_append, List.pairwise_cons] at hsorted
  refine ⟨i, (hmem i).mpr (by simp), hi, ?_⟩
  intro j hij hj
  apply hnone
  rcases List.mem_append.mp ((hmem j).mp hj) with hbefore | hafter
  · exact hbefore
  rcases List.mem_cons.mp hafter with rfl | hafter
  · exact absurd hij (Nat.lt_irrefl _)
  · exact absurd hij (Nat.lt_asymm (hsorted.2.1.1 j hafter))

section Search
variable (hf : 0 < f.fractionBits) (hr : rank < f.top) (tie : Tie)
include hf hr

/-- The search ends on the coarsest grid on which a neighbour is read as the magnitude. -/
theorem decimal_chosen : ∃ k drop, decimal f tie rank = .onGrid f false k drop ∧
    drop < (Nat.toDigits 10 (expanded f rank)).length ∧ Chosen f rank drop k ∧
    ∀ i, drop < i → i < (Nat.toDigits 10 (expanded f rank)).length →
      onGrid? f tie rank i = none := by
  have hlength : 0 < (Nat.toDigits 10 (expanded f rank)).length := Nat.length_toDigits_pos
  unfold decimal
  simp only
  cases h : (List.range (Nat.toDigits 10 (expanded f rank)).length).reverse.findSome?
      (onGrid? f tie rank) with
  | none =>
    have hnone := List.findSome?_eq_none_iff.mp h 0 (by simpa using hlength)
    refine absurd hnone (onGrid?_ne_none hf hr (.inl ?_))
    rw [below, Nat.pow_zero, Nat.div_one]
    exact reads_expanded hf hr
  | some d =>
    obtain ⟨drop, hdrop, hd, hcoarser⟩ := of_findSome?_reverse_range h
    obtain ⟨k, rfl, hk⟩ := onGrid?_chosen hf hr hd
    exact ⟨k, drop, rfl, hdrop, hk, hcoarser⟩

theorem decimal_minimal (h0 : rank ≠ 0) : Minimal f rank (decimal f tie rank) := by
  obtain ⟨k, drop, hd, hdrop, hk, hcoarser⟩ := decimal_chosen hf hr tie
  obtain ⟨l, hl⟩ := Nat.exists_eq_add_of_lt hdrop
  obtain ⟨hlow, hhigh⟩ := bounds_of_length_toDigits (expanded_ne_zero f h0) hl
  have htop : 10 ^ (drop + l + 1) = 10 * 10 ^ (drop + l) := Nat.pow_succ'
  have hdigits : (Decimal.onGrid f false k drop).HasDigits (l + 1) := by
    apply Decimal.hasDigits_onGrid _ (Nat.succ_pos l)
    have hquotient : below f rank drop < 10 ^ (l + 1) := by
      apply Nat.div_lt_of_lt_mul
      rwa [← Nat.pow_add]
    exact hk.le.trans hquotient
  rw [hd]
  refine ⟨hk.reads, ?_, ?_⟩
  · intro e he width hwidth
    rcases Nat.lt_or_ge l width with hlong | hshort
    · exact hdigits.mono hlong
    -- Fewer digits would do on a coarser grid.
    have hpos : 0 < width := by
      apply hwidth.pos
      intro hzero
      exact h0 (he.symm.trans (Decimal.rank_eq_zero hf hzero))
    obtain ⟨i, hi⟩ : ∃ i, i + width = drop + l + 1 := ⟨drop + l + 1 - width, by omega⟩
    have hlarge : 10 ^ (i + width) ≤ 10 * expanded f rank := by
      rw [hi]
      omega
    refine absurd (hcoarser i (by omega) (by omega)) (onGrid?_ne_none hf hr ?_)
    exact (exists_neighbour hf hr he hwidth hlarge).imp And.left And.left
  · intro e he hwidth
    rw [Decimal.expanded_onGrid]
    apply hk.abs_sub_le
    exact exists_neighbour hf hr he (hwidth _ hdigits) (by rw [← Nat.add_assoc]; omega)

/-- With its sign in front, the decimal that the search finds is a shortest one. -/
theorem decimal_isShortest (h0 : rank ≠ 0) (s : Bool) :
    (.ofRank s rank : Binary f).IsShortest { decimal f tie rank with negative := s } := by
  refine (isShortest_iff hf hr).mpr ⟨rfl, ?_⟩
  exact (decimal_minimal hf hr tie h0).congr hf rfl

end Search

end Shortest

/-- What is laid out for a magnitude is a shortest decimal of it. -/
theorem Layout.literal_isShortest {f : Format} (l : Layout) (hf : 0 < f.fractionBits) (s : Bool)
    {rank : Nat} (hr : rank < f.top) :
    (.ofRank s rank : Binary f).IsShortest (l.literal f s rank).decimal := by
  rw [Shortest.isShortest_iff hf hr]
  by_cases h0 : rank = 0
  · subst h0
    have hzero : (l.literal f s 0).decimal.digits = 0 := by cases s <;> rfl
    refine ⟨by cases s <;> rfl, Shortest.minimal_zero hf ?_⟩
    exact Decimal.magnitude_eq_zero_iff.mpr hzero
  · obtain ⟨d, j, k, hlaid, hshortest⟩ := exists_literal_padded l hf s hr h0
    have hminimal := Shortest.decimal_isShortest hf hr l.tie h0 s
    rw [hshortest, Shortest.isShortest_iff hf hr] at hminimal
    rw [hlaid]
    refine ⟨hminimal.1, hminimal.2.congr hf ?_⟩
    rw [Decimal.magnitude_padded, Decimal.magnitude_padded]

end Criteria
