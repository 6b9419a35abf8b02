/-!
Blank characters, the Unicode class White_Space, and texts cut at both ends by them.
-/

namespace Criteria.Text
set_option autoImplicit false

/-- The twenty-five characters of White_Space. Zero-width characters and the ASCII separators
U+001C to U+001F are not among them. -/
def isBlank (c : Char) : Bool :=
  let n := c.toNat
  (0x09 ≤ n && n ≤ 0x0D) || n == 0x20 || n == 0x85 || n == 0xA0 || n == 0x1680 ||
  (0x2000 ≤ n && n ≤ 0x200A) || n == 0x2028 || n == 0x2029 || n == 0x202F || n == 0x205F ||
  n == 0x3000

theorem isBlank_of_visible {c : Char} (h : 0x20 < c.toNat ∧ c.toNat < 0x7F) :
    isBlank c = false := by
  simp only [isBlank, Bool.or_eq_false_iff, Bool.and_eq_false_iff, decide_eq_false_iff_not,
    beq_eq_false_iff_ne]
  omega

def trimStart (cs : List Char) : List Char := cs.dropWhile isBlank

def trimEnd (cs : List Char) : List Char := (cs.reverse.dropWhile isBlank).reverse

/-- The text between its first and its last character that is not blank. -/
def trim (cs : List Char) : List Char := trimEnd (trimStart cs)

@[simp] theorem trim_nil : trim [] = [] := rfl

theorem dropBlank_eq_nil_iff {cs : List Char} :
    cs.dropWhile isBlank = [] ↔ ∀ c ∈ cs, isBlank c := by
  induction cs with
  | nil => simp
  | cons c r ih => by_cases h : isBlank c <;> simp [h, ih]

theorem append_blank {a b : List Char} (ha : ∀ c ∈ a, isBlank c) (hb : ∀ c ∈ b, isBlank c) :
    ∀ c ∈ a ++ b, isBlank c := by
  intro c hc
  exact (List.mem_append.mp hc).elim (ha c) (hb c)

theorem trimEnd_eq_nil_iff {cs : List Char} : trimEnd cs = [] ↔ ∀ c ∈ cs, isBlank c := by
  rw [trimEnd, List.reverse_eq_nil_iff, dropBlank_eq_nil_iff]
  simp only [List.mem_reverse]

theorem trimStart_blank_append {b : List Char} (h : ∀ c ∈ b, isBlank c) (cs : List Char) :
    trimStart (b ++ cs) = trimStart cs :=
  List.dropWhile_append_of_pos h

theorem trimEnd_append_blank (cs : List Char) {b : List Char} (h : ∀ c ∈ b, isBlank c) :
    trimEnd (cs ++ b) = trimEnd cs := by
  simp only [trimEnd, List.reverse_append]
  rw [List.dropWhile_append_of_pos (by simpa using h)]

theorem trimStart_eq_self {cs : List Char} (h : ∀ c ∈ cs.head?, isBlank c = false) :
    trimStart cs = cs := by
  cases cs with
  | nil => rfl
  | cons c r => simp [trimStart, h c rfl]

theorem trimEnd_eq_self {cs : List Char} (h : ∀ c ∈ cs.getLast?, isBlank c = false) :
    trimEnd cs = cs := by
  have : trimStart cs.reverse = cs.reverse := trimStart_eq_self (by simpa using h)
  simpa [trimEnd, trimStart] using congrArg List.reverse this

theorem trim_eq_self {cs : List Char} (first : ∀ c ∈ cs.head?, isBlank c = false)
    (last : ∀ c ∈ cs.getLast?, isBlank c = false) : trim cs = cs := by
  rw [trim, trimStart_eq_self first, trimEnd_eq_self last]

theorem trimStart_head {cs : List Char} : ∀ c ∈ (trimStart cs).head?, isBlank c = false := by
  induction cs with
  | nil => simp [trimStart]
  | cons c r ih =>
    by_cases h : isBlank c
    · simpa [trimStart, h] using ih
    · simp [trimStart, h]

theorem trimStart_suffix (cs : List Char) : ∃ b, (∀ c ∈ b, isBlank c) ∧ cs = b ++ trimStart cs := by
  induction cs with
  | nil => exact ⟨[], by simp, rfl⟩
  | cons c r ih =>
    by_cases h : isBlank c
    · obtain ⟨b, hb, e⟩ := ih
      refine ⟨c :: b, by simpa [h] using hb, ?_⟩
      simp only [trimStart, List.dropWhile_cons_of_pos h, List.cons_append]
      exact congrArg (c :: ·) e
    · exact ⟨[], by simp, by simp [trimStart, h]⟩

theorem trim_blank_append {b : List Char} (h : ∀ c ∈ b, isBlank c) (cs : List Char) :
    trim (b ++ cs) = trim cs := by
  rw [trim, trimStart_blank_append h, trim]

theorem trim_eq_nil_iff {cs : List Char} : trim cs = [] ↔ ∀ c ∈ cs, isBlank c := by
  obtain ⟨b, hb, e⟩ := trimStart_suffix cs
  rw [trim, trimEnd_eq_nil_iff]
  constructor
  · intro h c hc
    rw [e, List.mem_append] at hc
    exact hc.elim (hb c) (h c)
  · intro h c hc
    exact h c (e ▸ List.mem_append_right b hc)

theorem trim_append_blank (cs : List Char) {b : List Char} (h : ∀ c ∈ b, isBlank c) :
    trim (cs ++ b) = trim cs := by
  rw [trim, trim, trimStart, List.dropWhile_append]
  split
  · next hc =>
    rw [List.isEmpty_iff] at hc
    rw [trimStart, hc, dropBlank_eq_nil_iff.mpr h]
  · exact trimEnd_append_blank _ h

theorem exists_trim (cs : List Char) : ∃ a b, (∀ c ∈ a, isBlank c) ∧ (∀ c ∈ b, isBlank c) ∧
    cs = a ++ trim cs ++ b := by
  obtain ⟨a, ha, e⟩ := trimStart_suffix cs
  obtain ⟨b, hb, e'⟩ := trimStart_suffix (trimStart cs).reverse
  refine ⟨a, b.reverse, ha, by simpa using hb, ?_⟩
  have := congrArg List.reverse e'
  rw [List.reverse_append, List.reverse_reverse] at this
  rw [List.append_assoc]
  exact e.trans (congrArg (a ++ ·) this)

theorem mem_of_mem_trimStart {cs : List Char} {c : Char} (h : c ∈ trimStart cs) : c ∈ cs :=
  (List.dropWhile_sublist _).mem h

theorem mem_of_mem_trimEnd {cs : List Char} {c : Char} (h : c ∈ trimEnd cs) : c ∈ cs := by
  rw [trimEnd, List.mem_reverse] at h
  exact List.mem_reverse.mp (mem_of_mem_trimStart h)

theorem trim_last {cs : List Char} : ∀ c ∈ (trim cs).getLast?, isBlank c = false := by
  intro c hc
  rw [trim, trimEnd, List.getLast?_reverse] at hc
  exact trimStart_head c hc

theorem trim_head {cs : List Char} : ∀ c ∈ (trim cs).head?, isBlank c = false := by
  intro c hc
  obtain ⟨b, _, e⟩ := trimStart_suffix (trimStart cs).reverse
  have e := congrArg List.reverse e
  rw [List.reverse_append, List.reverse_reverse] at e
  have head : ∀ c ∈ (trimStart cs).head?, isBlank c = false := trimStart_head
  refine head c ?_
  rw [e]
  change c ∈ (trim cs ++ b.reverse).head?
  revert hc
  cases trim cs <;> simp

@[simp] theorem trim_trim (cs : List Char) : trim (trim cs) = trim cs :=
  trim_eq_self trim_head trim_last

theorem trim_plain {cs : List Char} (h : ∀ c ∈ cs, isBlank c = false) : trim cs = cs :=
  trim_eq_self (fun c hc => h c (List.mem_of_mem_head? hc))
    (fun c hc => h c (List.mem_of_mem_getLast? hc))

theorem trimEnd_prefix (cs : List Char) : ∃ b, (∀ c ∈ b, isBlank c) ∧ cs = trimEnd cs ++ b := by
  obtain ⟨b, hb, e⟩ := trimStart_suffix cs.reverse
  refine ⟨b.reverse, by simpa using hb, ?_⟩
  have e := congrArg List.reverse e
  rwa [List.reverse_append, List.reverse_reverse] at e

@[simp] theorem trim_trimEnd (cs : List Char) : trim (trimEnd cs) = trim cs := by
  obtain ⟨b, hb, e⟩ := trimEnd_prefix cs
  calc trim (trimEnd cs) = trim (trimEnd cs ++ b) := (trim_append_blank _ hb).symm
    _ = trim cs := by rw [← e]

@[simp] theorem trim_trimStart (cs : List Char) : trim (trimStart cs) = trim cs := by
  obtain ⟨b, hb, e⟩ := trimStart_suffix cs
  calc trim (trimStart cs) = trim (b ++ trimStart cs) := (trim_blank_append hb _).symm
    _ = trim cs := by rw [← e]

theorem trimStart_append_cons (a : List Char) {c : Char} (h : isBlank c = false) (b : List Char) :
    trimStart (a ++ c :: b) = trimStart a ++ c :: b := by
  induction a with
  | nil => simp [trimStart, h]
  | cons d a ih =>
    cases hd : isBlank d with
    | false => simp [trimStart, hd]
    | true => simpa [trimStart, hd] using ih

theorem trimEnd_append_cons (a : List Char) {c : Char} (h : isBlank c = false) (b : List Char) :
    trimEnd (a ++ c :: b) = a ++ c :: trimEnd b := by
  have hstart := trimStart_append_cons b.reverse h a.reverse
  simpa [trimEnd, trimStart] using congrArg List.reverse hstart

/-- Around a character that is not blank each side is cut at its own end. -/
theorem trim_append_cons (a : List Char) {c : Char} (h : isBlank c = false) (b : List Char) :
    trim (a ++ c :: b) = trimStart a ++ c :: trimEnd b := by
  rw [trim, trimStart_append_cons a h, trimEnd_append_cons _ h]

/-- Behind a text without blanks only the end is cut. -/
theorem trim_plain_append {a : List Char} (ne : a ≠ []) (h : ∀ c ∈ a, isBlank c = false)
    (cs : List Char) : trim (a ++ cs) = a ++ trimEnd cs := by
  obtain ⟨r, d, rfl⟩ : ∃ r d, a = r ++ [d] :=
    ⟨a.dropLast, a.getLast ne, (List.dropLast_concat_getLast ne).symm⟩
  have hstart : trimStart r = r := by
    apply trimStart_eq_self
    intro c hc
    exact h c (List.mem_append_left [d] (List.mem_of_mem_head? hc))
  rw [List.append_assoc, List.singleton_append, trim_append_cons r (h d (by simp)), hstart,
    List.append_assoc, List.singleton_append]

/-- In front of a text without blanks only the start is cut. -/
theorem trim_append_plain {a : List Char} (ne : a ≠ []) (h : ∀ c ∈ a, isBlank c = false)
    (cs : List Char) : trim (cs ++ a) = trimStart cs ++ a := by
  obtain ⟨d, r, rfl⟩ := List.exists_cons_of_ne_nil ne
  rw [trim_append_cons cs (h d List.mem_cons_self)]
  congr 2
  apply trimEnd_eq_self
  intro c hc
  exact h c (List.mem_cons_of_mem d (List.mem_of_mem_getLast? hc))

end Criteria.Text
