/-!
Texts between double quotes, as JSON writes and reads them. The writer escapes the quote, the
backslash and the control characters, and nothing else; the reader takes every JSON escape and
refuses half a surrogate pair.
-/

namespace Criteria.Text.Quoted
set_option autoImplicit false

def hexDigit (n : Nat) : Char := Nat.digitChar (n % 16)

def escape (c : Char) : List Char :=
  if c = '"' then ['\\', '"']
  else if c = '\\' then ['\\', '\\']
  else if c = '\x08' then ['\\', 'b']
  else if c = '\x0C' then ['\\', 'f']
  else if c = '\n' then ['\\', 'n']
  else if c = '\r' then ['\\', 'r']
  else if c = '\t' then ['\\', 't']
  else if c.toNat < 0x20 then ['\\', 'u', '0', '0', hexDigit (c.toNat / 16), hexDigit c.toNat]
  else [c]

def encode (cs : List Char) : List Char := '"' :: cs.flatMap escape ++ ['"']

/-- The character of a backslash and one letter. -/
def unescape? (c : Char) : Option Char :=
  if c = '"' ∨ c = '\\' ∨ c = '/' then some c
  else if c = 'b' then some '\x08'
  else if c = 'f' then some '\x0C'
  else if c = 'n' then some '\n'
  else if c = 'r' then some '\r'
  else if c = 't' then some '\t'
  else none

def hexValue? (c : Char) : Option Nat :=
  if c.isDigit then some (c.toNat - '0'.toNat)
  else if 'a' ≤ c ∧ c ≤ 'f' then some (c.toNat - 'a'.toNat + 10)
  else if 'A' ≤ c ∧ c ≤ 'F' then some (c.toNat - 'A'.toNat + 10)
  else none

def codeUnit? (a b c d : Char) : Option Nat := do
  let a ← hexValue? a
  let b ← hexValue? b
  let c ← hexValue? c
  let d ← hexValue? d
  return ((a * 16 + b) * 16 + c) * 16 + d

def isLeading (n : Nat) : Bool := 0xD800 ≤ n && n < 0xDC00

def isTrailing (n : Nat) : Bool := 0xDC00 ≤ n && n < 0xE000

/-- The rest of a quoted text behind its opening quote. The closing quote is the last character. -/
def decodeTail : List Char → Option (List Char)
  | [] => none
  | ['"'] => some []
  | '\\' :: 'u' :: a :: b :: c :: d :: r =>
    match codeUnit? a b c d with
    | none => none
    | some n =>
      if isTrailing n then none
      else if isLeading n then
        match r with
        | '\\' :: 'u' :: a :: b :: c :: d :: r =>
          match codeUnit? a b c d with
          | none => none
          | some m =>
            if isTrailing m then
              (decodeTail r).map (Char.ofNat (0x10000 + (n - 0xD800) * 0x400 + (m - 0xDC00)) :: ·)
            else none
        | _ => none
      else (decodeTail r).map (Char.ofNat n :: ·)
  | '\\' :: c :: r =>
    match unescape? c with
    | none => none
    | some d => (decodeTail r).map (d :: ·)
  | c :: r => if c = '"' ∨ c = '\\' ∨ c.toNat < 0x20 then none else (decodeTail r).map (c :: ·)

def decode? : List Char → Option (List Char)
  | '"' :: r => decodeTail r
  | _ => none

theorem hexValue?_hexDigit {n : Nat} (h : n < 16) : hexValue? (hexDigit n) = some n := by
  revert h
  revert n
  decide

theorem decodeTail_control {c : Char} (h : c.toNat < 0x20) (r : List Char) :
    decodeTail ('\\' :: 'u' :: '0' :: '0' :: hexDigit (c.toNat / 16) :: hexDigit c.toNat :: r) =
      (decodeTail r).map (c :: ·) := by
  have hu : codeUnit? '0' '0' (hexDigit (c.toNat / 16)) (hexDigit c.toNat) = some c.toNat := by
    have h₁ := hexValue?_hexDigit (n := c.toNat / 16) (by omega)
    have h₂ := hexValue?_hexDigit (n := c.toNat % 16) (by omega)
    have h₃ : hexDigit (c.toNat % 16) = hexDigit c.toNat := by simp [hexDigit]
    rw [h₃] at h₂
    have h₀ : hexValue? '0' = some 0 := rfl
    simp only [codeUnit?, h₀, h₁, h₂]
    simp
    omega
  rw [decodeTail]
  simp only [hu]
  have ht : isTrailing c.toNat = false := by simp [isTrailing]; omega
  have hl : isLeading c.toNat = false := by simp [isLeading]; omega
  simp [ht, hl, Char.ofNat_toNat]

theorem decodeTail_plain {c : Char} (hq : c ≠ '"') (hb : c ≠ '\\') (hc : ¬ c.toNat < 0x20)
    (r : List Char) : decodeTail (c :: r) = (decodeTail r).map (c :: ·) := by
  rw [decodeTail]
  · simp [hq, hb, hc]
  · simp_all
  · simp_all
  · simp_all

theorem decodeTail_escape (c : Char) (r : List Char) :
    decodeTail (escape c ++ r) = (decodeTail r).map (c :: ·) := by
  unfold escape
  split
  · subst c; simp [decodeTail, unescape?]
  split
  · subst c; simp [decodeTail, unescape?]
  split
  · subst c; simp [decodeTail, unescape?]
  split
  · subst c; simp [decodeTail, unescape?]
  split
  · subst c; simp [decodeTail, unescape?]
  split
  · subst c; simp [decodeTail, unescape?]
  split
  · subst c; simp [decodeTail, unescape?]
  split
  · next h => exact decodeTail_control h r
  · next hq hb _ _ _ _ _ hc => exact decodeTail_plain hq hb hc r

theorem decode?_encode (cs : List Char) : decode? (encode cs) = some cs := by
  change decodeTail (cs.flatMap escape ++ ['"']) = some cs
  induction cs with
  | nil => rfl
  | cons c r ih => rw [List.flatMap_cons, List.append_assoc, decodeTail_escape, ih]; rfl

end Criteria.Text.Quoted
