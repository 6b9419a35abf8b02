import Criteria.Criterion.Accepts
import Criteria.Proofs.IntegerText

/-!
# Matching integers without gaps

Rounding, dividing by a fixed float and rounding down all keep what lies between two floats between
their images. So the floats that an operator lets pass have no gap, those for which something is
different from the reference or leaves it as a remainder apart, and neither have the integers that
meet a criterion made of such operators.
-/

namespace Criteria
set_option autoImplicit false

namespace Binary

section Order
variable {f : Format} {x y z : Binary f}

theorem exists_position_of_le (h : x.le y = true) :
    ∃ i j, x.position? = some i ∧ y.position? = some j ∧ i ≤ j := by
  cases hx : x.position? with
  | none => simp [le, hx] at h
  | some i =>
    cases hy : y.position? with
    | none => simp [le, hx, hy] at h
    | some j => exact ⟨i, j, rfl, rfl, (le_iff hx hy).mp h⟩

theorem exists_position_of_lt (h : x.lt y = true) :
    ∃ i j, x.position? = some i ∧ y.position? = some j ∧ i < j := by
  cases hx : x.position? with
  | none => simp [lt, hx] at h
  | some i =>
    cases hy : y.position? with
    | none => simp [lt, hx, hy] at h
    | some j => exact ⟨i, j, rfl, rfl, (lt_iff hx hy).mp h⟩

theorem le_trans (hxy : x.le y = true) (hyz : y.le z = true) : x.le z = true := by
  obtain ⟨i, j, hi, hj, hij⟩ := exists_position_of_le hxy
  obtain ⟨j', k, hj', hk, hjk⟩ := exists_position_of_le hyz
  obtain rfl : j' = j := Option.some.inj (hj'.symm.trans hj)
  exact (le_iff hi hk).mpr (Int.le_trans hij hjk)

theorem lt_of_le_of_lt (hxy : x.le y = true) (hyz : y.lt z = true) : x.lt z = true := by
  obtain ⟨i, j, hi, hj, hij⟩ := exists_position_of_le hxy
  obtain ⟨j', k, hj', hk, hjk⟩ := exists_position_of_lt hyz
  obtain rfl : j' = j := Option.some.inj (hj'.symm.trans hj)
  exact (lt_iff hi hk).mpr (Int.lt_of_le_of_lt hij hjk)

theorem lt_of_lt_of_le (hxy : x.lt y = true) (hyz : y.le z = true) : x.lt z = true := by
  obtain ⟨i, j, hi, hj, hij⟩ := exists_position_of_lt hxy
  obtain ⟨j', k, hj', hk, hjk⟩ := exists_position_of_le hyz
  obtain rfl : j' = j := Option.some.inj (hj'.symm.trans hj)
  exact (lt_iff hi hk).mpr (Int.lt_of_lt_of_le hij hjk)

theorem isFinite_iff {i : Int} (h : x.position? = some i) :
    x.isFinite = true ↔ -(f.top : Int) < i ∧ i < f.top := by
  cases x with
  | nan => simp [position?] at h
  | infinite s =>
    cases s <;> obtain rfl := Option.some.inj h <;> simp [isFinite]
  | finite s r =>
    have hr := r.isLt
    cases s <;> obtain rfl := Option.some.inj h <;> simp only [isFinite, true_iff] <;> omega

/-- One number lies between two others, in either direction. -/
def Between (x y z : Binary f) : Prop :=
  (x.le y = true ∧ y.le z = true) ∨ (z.le y = true ∧ y.le x = true)

theorem Between.isFinite (h : Between x y z) (hx : x.isFinite = true) (hz : z.isFinite = true) :
    y.isFinite = true := by
  have key {x z : Binary f} (hx : x.isFinite = true) (hz : z.isFinite = true)
      (hxy : x.le y = true) (hyz : y.le z = true) : y.isFinite = true := by
    obtain ⟨i, j, hi, hj, hij⟩ := exists_position_of_le hxy
    obtain ⟨j', k, hj', hk, hjk⟩ := exists_position_of_le hyz
    obtain rfl : j' = j := Option.some.inj (hj'.symm.trans hj)
    rw [isFinite_iff hi] at hx
    rw [isFinite_iff hk] at hz
    rw [isFinite_iff hj]
    omega
  rcases h with ⟨hxy, hyz⟩ | ⟨hzy, hyx⟩
  · exact key hx hz hxy hyz
  · exact key hz hx hzy hyx

theorem signedUnits_le_of_le (hx : x.isFinite = true) (hy : y.isFinite = true)
    (h : x.le y = true) : x.signedUnits ≤ y.signedUnits := by
  obtain ⟨i, j, hi, hj, hij⟩ := exists_position_of_le h
  have hlt := signedUnits_lt_iff hy hx hj hi
  omega

theorem signedRank_not (s : Bool) (r : Nat) : f.signedRank (!s) r = -f.signedRank s r := by
  cases s <;> simp [Format.signedRank]

/-- Magnitudes that are exchanged for others in the same order, also of another format, zero for
zero, keep the order of the numbers, with the same signs as with the opposite ones. -/
theorem ofRank_le_ofRank {e : Format} {s t : Bool} {a b : Fin f.top}
    (h : (finite s a : Binary f).le (finite t b) = true) {g : Bool → Nat → Nat}
    (mono : ∀ s {m n : Nat}, m ≤ n → g s m ≤ g s n) (zero : ∀ s, g s 0 = 0) :
    (ofRank s (g s a) : Binary e).le (ofRank t (g t b)) = true ∧
    (ofRank (!t) (g t b) : Binary e).le (ofRank (!s) (g s a)) = true := by
  have hsigned : e.signedRank s (g s a) ≤ e.signedRank t (g t b) := by
    obtain ⟨i, j, hi, hj, hij⟩ := exists_position_of_le h
    cases s <;> cases t <;> obtain rfl := Option.some.inj hi <;> obtain rfl := Option.some.inj hj <;>
      simp only [Format.signedRank, if_true, Bool.false_eq_true, if_false]
    · have := mono false (show a.val ≤ b.val by omega)
      omega
    · rw [show a.val = 0 by omega, show b.val = 0 by omega, zero, zero]
      simp
    · omega
    · have := mono true (show b.val ≤ a.val by omega)
      omega
  rw [le_iff (position?_ofRank _ _) (position?_ofRank _ _),
    le_iff (position?_ofRank _ _) (position?_ofRank _ _), signedRank_not, signedRank_not]
  exact ⟨hsigned, Int.neg_le_neg hsigned⟩

variable (hf : 0 < f.fractionBits)
include hf

/-- Division by a positive float keeps the order, and by its negative reverses it. -/
theorem quotient_le (hx : x.isFinite = true) (hy : y.isFinite = true) (h : x.le y = true)
    {c : Fin f.top} (hc : f.units c ≠ 0) :
    (x.quotient (finite false c)).le (y.quotient (finite false c)) = true ∧
    (y.quotient (finite true c)).le (x.quotient (finite true c)) = true := by
  obtain ⟨s, a, rfl⟩ := exists_of_isFinite hx
  obtain ⟨t, b, rfl⟩ := exists_of_isFinite hy
  have hpos : 0 < f.units c := Nat.pos_of_ne_zero hc
  have horder := ofRank_le_ofRank (e := f) h
    (g := fun _ r => f.nearestRank (f.units r * f.one) (f.units c))
    (fun _ m n hmn => f.nearestRank_mono hf hpos hpos
      (Nat.mul_le_mul_right _ (Nat.mul_le_mul_right _ (f.units_mono hmn))))
    (fun _ => by rw [f.units_zero, Nat.zero_mul, f.nearestRank_zero hf hpos])
  simpa only [quotient, if_neg hc, ofUnits, Bool.bne_false, Bool.bne_true] using horder

theorem floor_le (hx : x.isFinite = true) (hy : y.isFinite = true) (h : x.le y = true) :
    x.floor.le y.floor = true := by
  obtain ⟨s, a, rfl⟩ := exists_of_isFinite hx
  obtain ⟨t, b, rfl⟩ := exists_of_isFinite hy
  have horder := ofRank_le_ofRank (e := f) h (g := fun s r => f.nearestRank
    (if s then (f.units r + (f.one - 1)) / f.one * f.one else f.units r / f.one * f.one) 1)
    ?mono ?zero
  case mono =>
    intro s m n hmn
    have hunits := f.units_mono hmn
    apply f.nearestRank_mono hf Nat.one_pos Nat.one_pos
    rw [Nat.mul_one, Nat.mul_one]
    cases s
    · exact Nat.mul_le_mul_right _ (Nat.div_le_div_right hunits)
    · exact Nat.mul_le_mul_right _ (Nat.div_le_div_right (Nat.add_le_add_right hunits _))
  case zero =>
    intro s
    have hone : 0 < f.one := Nat.two_pow_pos _
    have hless : (f.one - 1) / f.one = 0 := Nat.div_eq_of_lt (by omega)
    cases s <;> simp [hless, f.nearestRank_zero hf Nat.one_pos]
  cases s <;> cases t <;> exact horder.1

theorem Between.quotient (h : Between x y z) (hx : x.isFinite = true) (hz : z.isFinite = true)
    (s : Bool) {c : Fin f.top} (hc : f.units c ≠ 0) :
    Between (x.quotient (finite s c)) (y.quotient (finite s c)) (z.quotient (finite s c)) := by
  have hy := h.isFinite hx hz
  rcases h with ⟨hxy, hyz⟩ | ⟨hzy, hyx⟩
  · have hlow := quotient_le hf hx hy hxy hc
    have hhigh := quotient_le hf hy hz hyz hc
    cases s with
    | false => exact .inl ⟨hlow.1, hhigh.1⟩
    | true => exact .inr ⟨hhigh.2, hlow.2⟩
  · have hlow := quotient_le hf hz hy hzy hc
    have hhigh := quotient_le hf hy hx hyx hc
    cases s with
    | false => exact .inr ⟨hlow.1, hhigh.1⟩
    | true => exact .inl ⟨hhigh.2, hlow.2⟩

theorem Between.floor (h : Between x y z) (hx : x.isFinite = true) (hz : z.isFinite = true) :
    Between x.floor y.floor z.floor := by
  have hy := h.isFinite hx hz
  rcases h with ⟨hxy, hyz⟩ | ⟨hzy, hyx⟩
  · exact .inl ⟨floor_le hf hx hy hxy, floor_le hf hy hz hyz⟩
  · exact .inr ⟨floor_le hf hz hy hzy, floor_le hf hy hx hyx⟩

end Order

section Closeness
variable {x y z c : Single}

theorem lt_tolerance_of_le {m n : Nat} (hmn : m ≤ n)
    (h : (ofUnits false n 1 : Single).lt tolerance = true) :
    (ofUnits false m 1 : Single).lt tolerance = true := by
  have hrank : Format.single.nearestRank m 1 ≤ Format.single.nearestRank n 1 :=
    Format.single.nearestRank_mono (by decide) Nat.one_pos Nat.one_pos (by omega)
  rw [ofUnits, tolerance, lt_iff (position?_ofRank _ _) (position?_ofRank _ _)] at h ⊢
  simp only [Format.signedRank, Bool.false_eq_true, if_false] at h ⊢
  omega

/-- What lies between two floats close to a third is close to it. -/
theorem Between.isClose (h : Between x y z) (hx : x.isClose c = true) (hz : z.isClose c = true) :
    y.isClose c = true := by
  obtain ⟨hfx, hfc⟩ := isFinite_of_isClose hx
  have hfz := (isFinite_of_isClose hz).1
  have hfy := h.isFinite hfx hfz
  rw [Binary.isClose, distance_of_isFinite hfx hfc] at hx
  rw [Binary.isClose, distance_of_isFinite hfz hfc] at hz
  rw [Binary.isClose, distance_of_isFinite hfy hfc]
  have hbetween : (x.signedUnits ≤ y.signedUnits ∧ y.signedUnits ≤ z.signedUnits) ∨
      (z.signedUnits ≤ y.signedUnits ∧ y.signedUnits ≤ x.signedUnits) := by
    rcases h with ⟨hxy, hyz⟩ | ⟨hzy, hyx⟩
    · exact .inl ⟨signedUnits_le_of_le hfx hfy hxy, signedUnits_le_of_le hfy hfz hyz⟩
    · exact .inr ⟨signedUnits_le_of_le hfz hfy hzy, signedUnits_le_of_le hfy hfx hyx⟩
  have hfar : (y.signedUnits - c.signedUnits).natAbs ≤ (x.signedUnits - c.signedUnits).natAbs ∨
      (y.signedUnits - c.signedUnits).natAbs ≤ (z.signedUnits - c.signedUnits).natAbs := by omega
  rcases hfar with hfar | hfar
  · exact lt_tolerance_of_le hfar hx
  · exact lt_tolerance_of_le hfar hz

/-- A quotient whose integer part is close to something has finite sides, and is not by zero. -/
theorem finite_of_floor_quotient (h : (x.quotient c).floor.isClose c = true) :
    x.isFinite = true ∧ ∃ s r, c = finite s r ∧ Format.single.units r ≠ 0 := by
  obtain ⟨hfloor, hc⟩ := isFinite_of_isClose h
  obtain ⟨s, r, rfl⟩ := exists_of_isFinite hc
  cases x with
  | nan => simp [quotient, floor, isFinite] at hfloor
  | infinite t => simp [quotient, floor, isFinite] at hfloor
  | finite t q =>
    refine ⟨rfl, s, r, rfl, fun hzero => ?_⟩
    rw [quotient, if_pos hzero] at hfloor
    split at hfloor <;> simp [floor, isFinite] at hfloor

theorem isFinite_of_floor (h : x.floor.isFinite = true) : x.isFinite = true := by
  cases x with
  | finite => rfl
  | nan | infinite => exact h

end Closeness

end Binary

namespace Operator

/-- The operators that let pass whatever lies between two floats they let pass. -/
def isConvex : Operator → Bool
  | notEqual | remainder => false
  | _ => true

open Binary in
theorem holdsFloat_between {op : Operator} (hop : op.isConvex = true) {x y z c : Single}
    (h : Between x y z) (hx : op.holdsFloat x c = true) (hz : op.holdsFloat z c = true) :
    op.holdsFloat y c = true := by
  -- It is not beyond both sides.
  have hbelow : y.le x = true ∨ y.le z = true := by
    rcases h with ⟨_, hyz⟩ | ⟨_, hyx⟩
    · exact .inr hyz
    · exact .inl hyx
  have habove : x.le y = true ∨ z.le y = true := by
    rcases h with ⟨hxy, _⟩ | ⟨hzy, _⟩
    · exact .inl hxy
    · exact .inr hzy
  cases op with
  | notEqual | remainder => simp [isConvex] at hop
  | equal => exact h.isClose hx hz
  | less =>
    rcases hbelow with hy | hy
    · exact lt_of_le_of_lt hy hx
    · exact lt_of_le_of_lt hy hz
  | lessEqual =>
    rcases hbelow with hy | hy
    · exact le_trans hy hx
    · exact le_trans hy hz
  | greater =>
    rcases habove with hy | hy
    · exact lt_of_lt_of_le hx hy
    · exact lt_of_lt_of_le hz hy
  | greaterEqual =>
    rcases habove with hy | hy
    · exact le_trans hx hy
    · exact le_trans hz hy
  | quotient =>
    obtain ⟨hfx, s, r, rfl, hr⟩ := finite_of_floor_quotient hx
    have hfz := (finite_of_floor_quotient hz).1
    have hquotient := h.quotient (by decide) hfx hfz s hr
    have hfloor := hquotient.floor (by decide) (isFinite_of_floor (isFinite_of_isClose hx).1)
      (isFinite_of_floor (isFinite_of_isClose hz).1)
    exact hfloor.isClose hx hz

end Operator

namespace Criterion

/-- The criteria that compare an integer as a float, by operators without gaps. -/
def isConvex : Criterion → Bool
  | single op reference => op.isConvex && reference.kind == .float
  | range lower upper => lower.op.isConvex && upper.op.isConvex

theorem between_ofInt {n₁ n n₂ : Int} (h₁ : n₁ ≤ n) (h₂ : n ≤ n₂) :
    Binary.Between (.ofInt n₁ : Single) (.ofInt n) (.ofInt n₂) :=
  .inl ⟨Binary.ofInt_le (by decide) h₁, Binary.ofInt_le (by decide) h₂⟩

theorem accepts_single_float (op : Operator) (x : Single) (n : Int) :
    (single op (.float x)).accepts (.ofInt n) = op.holdsFloat (.ofInt n) x := by
  have hview : (Value.ofInt n).satisfies op (.float x) =
      op.holdsFloat (Value.ofInt n).toSingle x := by
    unfold Value.ofInt
    split <;> rfl
  rw [accepts, hview, Value.toSingle_ofInt]

/-- If two integers meet a range, or a single comparison with a float, whose operators have no gaps,
then so does every integer between them. -/
theorem accepts_ofInt_between {c : Criterion} (hc : c.isConvex = true) {n₁ n n₂ : Int}
    (h₁ : n₁ ≤ n) (h₂ : n ≤ n₂) (hlow : c.accepts (.ofInt n₁) = true)
    (hhigh : c.accepts (.ofInt n₂) = true) : c.accepts (.ofInt n) = true := by
  have hbetween := between_ofInt h₁ h₂
  cases c with
  | single op reference =>
    simp only [isConvex, Bool.and_eq_true, beq_iff_eq] at hc
    obtain ⟨hop, hkind⟩ := hc
    cases reference with
    | float x =>
      rw [accepts_single_float] at hlow hhigh ⊢
      exact Operator.holdsFloat_between hop hbetween hlow hhigh
    | absent | integer | boolean | text => simp [Value.kind] at hkind
  | range lower upper =>
    simp only [isConvex, Bool.and_eq_true] at hc
    simp only [accepts, Value.isPresent_ofInt, Value.toSingle_ofInt, Bound.admits, Bool.true_and,
      Bool.and_eq_true] at hlow hhigh ⊢
    exact ⟨Operator.holdsFloat_between hc.1 hbetween hlow.1 hhigh.1,
      Operator.holdsFloat_between hc.2 hbetween hlow.2 hhigh.2⟩

/-- The integers equal to a float at the edge of 32 bits: some are integers of 32 bits, others go to
that float. -/
theorem accepts_between_across_edge :
    (single .equal (.float (.ofInt (2 ^ 31)))).isConvex = true ∧
    ((2 ^ 31 - 64 : Int) ≤ 2 ^ 31 - 1 ∧ (2 ^ 31 - 1 : Int) ≤ 2 ^ 31 + 128) ∧
    (single .equal (.float (.ofInt (2 ^ 31)))).accepts (.ofInt (2 ^ 31 - 64)) = true ∧
    (single .equal (.float (.ofInt (2 ^ 31)))).accepts (.ofInt (2 ^ 31 + 128)) = true ∧
    (single .equal (.float (.ofInt (2 ^ 31)))).accepts (.ofInt (2 ^ 31 - 1)) = true := by
  have hc : (single .equal (.float (.ofInt (2 ^ 31)))).isConvex = true := rfl
  have h₁ : (2 ^ 31 - 64 : Int) ≤ 2 ^ 31 - 1 := by decide
  have h₂ : (2 ^ 31 - 1 : Int) ≤ 2 ^ 31 + 128 := by decide
  have hlow : (single .equal (.float (.ofInt (2 ^ 31)))).accepts (.ofInt (2 ^ 31 - 64)) = true := by
    decide
  have hhigh : (single .equal (.float (.ofInt (2 ^ 31)))).accepts (.ofInt (2 ^ 31 + 128)) = true := by
    decide
  exact ⟨hc, ⟨h₁, h₂⟩, hlow, hhigh, accepts_ofInt_between hc h₁ h₂ hlow hhigh⟩

/-- Without the condition on operators there are gaps. -/
example : (single .notEqual (.float (.ofInt 4))).accepts (.ofInt 3) = true ∧
    (single .notEqual (.float (.ofInt 4))).accepts (.ofInt 4) = false ∧
    (single .notEqual (.float (.ofInt 4))).accepts (.ofInt 5) = true := by decide

end Criterion
end Criteria
