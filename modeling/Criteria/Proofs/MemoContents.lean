import Criteria.Proofs.MemoTransparency

/-!
# What the memo holds

A memo keeps the texts it is asked about in the order in which they first come up, until it is full.
Nothing it keeps is given up or exchanged before the memo is cleared. Texts are told apart as they
are, blanks included.
-/

namespace Criteria.Memo
set_option autoImplicit false
variable {m : Memo} {texts : List String}

/-- The texts asked about since the last clearing, after one more call. -/
def note (texts : List String) : Call → List String
  | .get text | .accepts text _ => texts ++ [text]
  | .contains _ | .size => texts
  | .clear => []

/-- The texts that calls ask about after the last clearing among them, in the order of the calls. -/
def asked (calls : List Call) : List String := calls.foldl note []

/-- The texts that come to be kept: the first distinct ones, as many as there is room for. -/
def firsts (texts : List String) : List String := texts.eraseDups.take capacity

/-- The memo has kept what it could of the texts it was asked about. -/
structure Holds (m : Memo) (texts : List String) : Prop where
  contains_iff : ∀ text, m.contains text = true ↔ text ∈ firsts texts
  size_eq : m.size = min capacity texts.eraseDups.length

theorem empty_holds : empty.Holds [] where
  contains_iff text := by simp [empty, contains, firsts]
  size_eq := by simp [empty, size]

theorem eraseDups_single (text : String) : [text].eraseDups = [text] := by
  simp [List.eraseDups_cons]

theorem eraseDups_append_mem {text : String} (h : text ∈ texts) :
    (texts ++ [text]).eraseDups = texts.eraseDups := by
  simp [List.eraseDups_append, List.removeAll, h]

theorem eraseDups_append_not_mem {text : String} (h : text ∉ texts) :
    (texts ++ [text]).eraseDups = texts.eraseDups ++ [text] := by
  simp [List.eraseDups_append, List.removeAll, h, eraseDups_single]

/-- A text that comes up again, or that finds no room, changes nothing. -/
theorem Holds.append_of_kept_or_full (h : m.Holds texts) {text : String}
    (hkept : text ∈ texts ∨ capacity ≤ texts.eraseDups.length) : m.Holds (texts ++ [text]) := by
  by_cases hmem : text ∈ texts
  · have hsame := eraseDups_append_mem hmem
    exact ⟨by simpa only [firsts, hsame] using h.contains_iff, by rw [hsame, h.size_eq]⟩
  · have hfull := hkept.resolve_left hmem
    have hmore := eraseDups_append_not_mem hmem
    constructor
    · simpa only [firsts, hmore, List.take_append_of_le_length hfull] using h.contains_iff
    · rw [hmore, h.size_eq, List.length_append]
      omega

/-- With room left, all that came up is kept, and a new text is kept as well. -/
theorem Holds.insert (h : m.Holds texts) {text : String} (c : Criterion)
    (hnew : m.contains text = false) (hroom : m.size < capacity) :
    (Memo.mk (m.entries.insert text c)).Holds (texts ++ [text]) := by
  have hsize := h.size_eq
  have hall : firsts texts = texts.eraseDups := List.take_of_length_le (by omega)
  have hmem : text ∉ texts := by
    intro hmem
    have hkept : text ∈ firsts texts := by rwa [hall, List.mem_eraseDups]
    rw [(h.contains_iff text).mpr hkept] at hnew
    exact Bool.noConfusion hnew
  have hmore := eraseDups_append_not_mem hmem
  have hlength : (texts ++ [text]).eraseDups.length = texts.eraseDups.length + 1 := by
    rw [hmore, List.length_append, List.length_singleton]
  constructor
  · intro key
    have hkey := h.contains_iff key
    rw [hall] at hkey
    rw [firsts, List.take_of_length_le (by omega), hmore, List.mem_append, List.mem_singleton,
      ← hkey]
    simp only [contains, Std.HashMap.contains_insert, Bool.or_eq_true, beq_iff_eq]
    rw [eq_comm, or_comm]
  · have hnot : text ∉ m.entries := by
      rw [Std.HashMap.mem_iff_contains]
      exact Bool.eq_false_iff.mp hnew
    have hinsert := Std.HashMap.size_insert (m := m.entries) (k := text) (v := c)
    rw [if_neg hnot] at hinsert
    simp only [size] at hsize hroom ⊢
    omega

theorem Holds.keep (h : m.Holds texts) {text : String} (c : Criterion)
    (hnew : m.contains text = false) : (m.keep capacity text c).2.Holds (texts ++ [text]) := by
  have hsize := h.size_eq
  unfold Memo.keep
  split
  · next hfull => exact h.append_of_kept_or_full (.inr (by omega))
  · next hroom => exact h.insert c hnew (Nat.lt_of_not_le fun hfull => hroom ⟨hfull, hnew⟩)

theorem Holds.get (h : m.Holds texts) (text : String) : (m.get text).2.Holds (texts ++ [text]) := by
  have hcontains : m.contains text = m.entries[text]?.isSome :=
    Std.HashMap.contains_eq_isSome_getElem?
  unfold Memo.get
  split
  · next c hc =>
    rw [hc, Option.isSome_some, h.contains_iff] at hcontains
    exact h.append_of_kept_or_full (.inl (List.mem_eraseDups.mp (List.mem_of_mem_take hcontains)))
  · next hc =>
    rw [hc, Option.isSome_none] at hcontains
    exact h.keep _ hcontains

theorem accepts_snd (m : Memo) (text : String) (input : Value) :
    (m.accepts text input).2 = (m.get text).2 := by
  unfold accepts Memo.get
  cases m.entries[text]? <;> rfl

theorem Holds.step (h : m.Holds texts) (call : Call) : (m.step call).2.Holds (note texts call) := by
  cases call with
  | get text => exact h.get text
  | accepts text input =>
    have hget := h.get text
    rwa [← accepts_snd m text input] at hget
  | contains text => exact h
  | size => exact h
  | clear => exact empty_holds

theorem Holds.run (h : m.Holds texts) (calls : List Call) :
    (m.run calls).Holds (calls.foldl note texts) := by
  induction calls generalizing m texts with
  | nil => exact h
  | cons call calls ih => exact ih (h.step call)

/-- What is kept stays kept with the same criterion, whatever is asked next. -/
theorem getElem?_step {call : Call} (hcall : call ≠ .clear) {text : String} {c : Criterion}
    (h : m.entries[text]? = some c) : (m.step call).2.entries[text]? = some c := by
  have hget (key : String) : (m.get key).2.entries[text]? = some c := by
    unfold Memo.get
    split
    · exact h
    · next hkey =>
      unfold keep
      split
      · exact h
      · have hne : key ≠ text := by
          rintro rfl
          simp [hkey] at h
        rw [Std.HashMap.getElem?_insert, if_neg (by simpa using hne), h]
  cases call with
  | get key => exact hget key
  | accepts key input =>
    have hkey := hget key
    rwa [← accepts_snd m key input] at hkey
  | contains key => exact h
  | size => exact h
  | clear => exact absurd rfl hcall

theorem getElem?_run {calls : List Call} (hcalls : Call.clear ∉ calls) {text : String}
    {c : Criterion} (h : m.entries[text]? = some c) : (m.run calls).entries[text]? = some c := by
  induction calls generalizing m with
  | nil => exact h
  | cons call calls ih =>
    rw [List.mem_cons, not_or] at hcalls
    exact ih hcalls.2 (getElem?_step (Ne.symm hcalls.1) h)

/-- Two different texts, asked about after a clearing, are two entries. -/
theorem asked_two (calls : List Call) {s t : String} (h : s ≠ t) :
    (asked (calls ++ [.clear, .get s])).eraseDups = [s] ∧
    (asked (calls ++ [.clear, .get s, .get t])).eraseDups = [s, t] := by
  have hboth : [s, t].eraseDups = [s, t] := by
    have hpair : ([s] ++ [t]).eraseDups = [s].eraseDups ++ [t] :=
      eraseDups_append_not_mem (by simpa using h.symm)
    rwa [eraseDups_single] at hpair
  simp [asked, List.foldl_append, note, eraseDups_single, hboth]

/-- After any run of calls the memo holds the first distinct texts that were asked about since it was
last cleared, up to its capacity; it says so when asked, and being asked changes nothing. Until the
next clearing every entry stays as it is. Texts that differ only in outer blanks are different
entries. -/
theorem run_holds_firsts (calls : List Call) :
    (∀ text, (run empty calls).contains text = true ↔
      text ∈ (asked calls).eraseDups.take capacity) ∧
    (run empty calls).size = min capacity (asked calls).eraseDups.length ∧
    (∀ text, (run empty calls).step (.contains text) =
      (.verdict (decide (text ∈ (asked calls).eraseDups.take capacity)), run empty calls)) ∧
    (run empty calls).step .size =
      (.count (min capacity (asked calls).eraseDups.length), run empty calls) ∧
    (∀ more : List Call, .clear ∉ more → ∀ (text : String) (c : Criterion),
      (run empty calls).entries[text]? = some c → (run empty (calls ++ more)).entries[text]? = some c) ∧
    ∀ s t : String, s ≠ t → Text.trim s.toList = Text.trim t.toList →
      (run empty (calls ++ [.clear, .get s])).contains t = false ∧
      (run empty (calls ++ [.clear, .get s, .get t])).contains s = true ∧
      (run empty (calls ++ [.clear, .get s, .get t])).contains t = true ∧
      (run empty (calls ++ [.clear, .get s, .get t])).size = 2 := by
  have hrun (calls : List Call) : (run empty calls).Holds (asked calls) := empty_holds.run calls
  refine ⟨(hrun calls).contains_iff, (hrun calls).size_eq, ?_, ?_, ?_, ?_⟩
  · intro text
    have hverdict : (run empty calls).contains text = decide (text ∈ firsts (asked calls)) := by
      rw [Bool.eq_iff_iff, (hrun calls).contains_iff, decide_eq_true_eq]
    rw [step, hverdict, firsts]
  · rw [step, (hrun calls).size_eq]
  · intro more hmore text c hc
    rw [run_append]
    exact getElem?_run hmore hc
  · intro s t hne _
    obtain ⟨hone, htwo⟩ := asked_two calls hne
    have hs := hrun (calls ++ [.clear, .get s])
    have hst := hrun (calls ++ [.clear, .get s, .get t])
    refine ⟨?_, ?_, ?_, ?_⟩
    · rw [Bool.eq_false_iff, ne_eq, hs.contains_iff, firsts, hone]
      simpa [capacity] using hne.symm
    · simp [hst.contains_iff, firsts, htwo, capacity]
    · simp [hst.contains_iff, firsts, htwo, capacity]
    · rw [hst.size_eq, htwo]
      rfl

end Criteria.Memo
