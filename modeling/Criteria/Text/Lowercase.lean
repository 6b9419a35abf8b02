import Criteria.Text.LowercaseTable

/-!
Letter case. A text is compared either by ASCII letters alone or by the full lower-case mapping of
each of its characters.
-/

namespace Criteria.Text
set_option autoImplicit false

def sameAscii (a b : List Char) : Bool := a.map Char.toLower == b.map Char.toLower

/-- The lower case of one character: itself if it has none. Only U+0130 has two characters. -/
def lowercase (c : Char) : List Char :=
  if c.toNat < 0x80 then [c.toLower]
  else if c.toNat = 0x130 then ['i', '\u0307']
  else [(mapped? lowercaseStretches c).getD c]

/-- The lower case of a text, character by character and whatever stands beside it. -/
def lowered (cs : List Char) : List Char := cs.flatMap lowercase

def sameLetters (a b : List Char) : Bool := lowered a == lowered b

@[simp] theorem sameAscii_refl (a : List Char) : sameAscii a a := by simp [sameAscii]

@[simp] theorem sameLetters_refl (a : List Char) : sameLetters a a := by simp [sameLetters]

end Criteria.Text
