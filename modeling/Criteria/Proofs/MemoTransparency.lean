import Criteria.Host

/-!
# The memo never shows

Whatever calls came before, an entry of the memo is the criterion of its text. So an answer does not
depend on whether the text was found, kept as a new one or left out of a full memo.
-/

namespace Criteria
set_option autoImplicit false

namespace Memo
variable {m : Memo}

/-- Every entry is parsed from its text, and there are not more of them than there is room for. -/
structure Sound (m : Memo) : Prop where
  parsed : ∀ text c, m.entries[text]? = some c → c = Criterion.parse text
  bounded : m.size ≤ capacity

theorem empty_sound : empty.Sound where
  parsed := by
    intro text c h
    simp [empty] at h
  bounded := by simp [empty, size]

theorem size_keep_le {limit : Nat} (h : m.size ≤ limit) (text : String) (c : Criterion) :
    (m.keep limit text c).2.size ≤ limit := by
  unfold keep
  split
  · exact h
  next hroom =>
  simp only [size, contains, not_and, Bool.not_eq_false] at hroom h ⊢
  rw [Std.HashMap.size_insert]
  split
  · exact h
  · next hnew =>
    rw [Std.HashMap.mem_iff_contains] at hnew
    have hlt : m.entries.size < limit := Nat.lt_of_not_le fun hle => hnew (hroom hle)
    exact hlt

/-- A memo says that it took an expression exactly if it holds that expression now. -/
theorem keep_fst_iff {limit : Nat} {text : String} {c : Criterion} :
    (m.keep limit text c).1 = true ↔ (m.keep limit text c).2.entries[text]? = some c := by
  unfold keep
  split
  · next hfull =>
    have hnone : m.entries[text]? = none := Std.HashMap.getElem?_eq_none_of_contains_eq_false hfull.2
    rw [hnone]
    exact iff_of_false Bool.false_ne_true nofun
  · exact iff_of_true rfl Std.HashMap.getElem?_insert_self

theorem Sound.keep (h : m.Sound) (text : String) :
    (m.keep capacity text (Criterion.parse text)).2.Sound where
  parsed := by
    intro key c hc
    unfold Memo.keep at hc
    split at hc
    · exact h.parsed key c hc
    rw [Std.HashMap.getElem?_insert] at hc
    split at hc
    · next hkey =>
      rw [← Option.some.inj hc, eq_of_beq hkey]
    · exact h.parsed key c hc
  bounded := size_keep_le h.bounded text _

/-- The text is found with its criterion, or it is parsed and kept if there is room. -/
theorem Sound.get_eq (h : m.Sound) (text : String) : m.get text = (Criterion.parse text, m) ∨
    m.get text = (Criterion.parse text, (m.keep capacity text (Criterion.parse text)).2) := by
  unfold get
  split
  · next c hc =>
    rw [h.parsed text c hc]
    exact .inl rfl
  · exact .inr rfl

theorem Sound.accepts_eq (h : m.Sound) (text : String) (input : Value) :
    m.accepts text input = ((Criterion.parse text).accepts input, (m.get text).2) := by
  unfold accepts get
  cases hc : m.entries[text]? with
  | none => rfl
  | some c => simp only [h.parsed text c hc]

theorem Sound.get_fst (h : m.Sound) (text : String) : (m.get text).1 = Criterion.parse text := by
  rcases h.get_eq text with he | he <;> rw [he]

theorem Sound.get_snd (h : m.Sound) (text : String) : (m.get text).2.Sound := by
  rcases h.get_eq text with he | he <;> rw [he]
  · exact h
  · exact h.keep text

theorem Sound.step (h : m.Sound) (call : Call) : (m.step call).2.Sound := by
  cases call with
  | get text => exact h.get_snd text
  | accepts text input =>
    have hget := h.get_snd text
    simpa only [Memo.step, h.accepts_eq text input] using hget
  | contains text => exact h
  | size => exact h
  | clear => exact empty_sound

theorem Sound.run (h : m.Sound) (calls : List Call) : (m.run calls).Sound := by
  induction calls generalizing m with
  | nil => exact h
  | cons call calls ih => exact ih (h.step call)

theorem run_append (m : Memo) (calls more : List Call) :
    m.run (calls ++ more) = (m.run calls).run more := by
  simp only [Memo.run, List.foldl_append]

end Memo

namespace Host

theorem check_fst {m : Memo} (h : m.Sound) (text : String) (o : Object) :
    (check m text o).1 = accepts (criterion (some text)) o := by
  unfold check accepts
  cases o.toValue with
  | error e => rfl
  | ok v =>
    simp only [h.accepts_eq text v]
    rfl

/-- A check does to the memo what at most one call does. -/
theorem check_snd (m : Memo) (text : String) (o : Object) :
    ∃ more : List Memo.Call, (check m text o).2 = m.run more := by
  unfold check
  cases o.toValue with
  | error e => exact ⟨[], rfl⟩
  | ok v => exact ⟨[.accepts text v], rfl⟩

end Host

/-- After any run of calls the memo holds criteria of their own texts and no more than there is room
for, and every answer is the one that parsing anew would give, also through the host, whose checks
leave the memo where further calls would. -/
theorem Memo.run_transparent (calls : List Call) :
    (∀ text c, (run empty calls).entries[text]? = some c → c = Criterion.parse text) ∧
    (run empty calls).size ≤ capacity ∧
    (∀ text, ((run empty calls).get text).1 = Criterion.parse text) ∧
    (∀ text input,
      ((run empty calls).accepts text input).1 = (Criterion.parse text).accepts input) ∧
    (∀ text o, (Host.check (run empty calls) text o).1 =
      Host.accepts (Host.criterion (some text)) o) ∧
    ∀ text o, ∃ more, (Host.check (run empty calls) text o).2 = run empty (calls ++ more) := by
  have h : (run empty calls).Sound := empty_sound.run calls
  refine ⟨h.parsed, h.bounded, h.get_fst, ?_, fun text o => Host.check_fst h text o, ?_⟩
  · intro text input
    rw [h.accepts_eq]
  · intro text o
    obtain ⟨more, hmore⟩ := Host.check_snd (run empty calls) text o
    exact ⟨more, by rw [hmore, run_append]⟩

end Criteria
