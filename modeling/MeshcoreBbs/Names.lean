import MeshcoreBbs.Text

/-!
# Display names (`names.py` and `validate_name` of `onboarding.py`)

`str.lower` needs the Unicode tables, so `lower` is an argument wherever a name is
lower-cased.
-/

namespace Bbs

namespace Names

def nameMin : Nat := 1

def nameMax : Nat := 10

/-- `_DISALLOWED`. -/
def disallowed (c : Char) : Bool :=
  let n := c.toNat
  isSpace c || n ≤ 0x1f || (0x7f ≤ n && n ≤ 0x9f) ||
    (lit "!@#$%^&*()+=[]\x7b\x7d|\\;:'\",.<>/?`~").contains c

def isEmojiChar (c : Char) : Bool :=
  let n := c.toNat
  n == 0x200d || n == 0xfe0f || (0x1f300 ≤ n && n ≤ 0x1faff) || (0x2600 ≤ n && n ≤ 0x27bf) ||
    (0x1f1e0 ≤ n && n ≤ 0x1f1ff)

def isAllowedNameChar (c : Char) : Bool :=
  (c.toNat < 128 && (c.isAlphanum || c == '_' || c == '-')) || isEmojiChar c

def badChars : Text := lit "! Bad chars, use A-Z 0-9 _ - emoji"

/-- The Unicode category of a character that is not allowed only chooses between two
returns of the same text. -/
def validateNameChars (name : Text) : Option Text :=
  if name.any disallowed then some badChars
  else if name.any fun c => !isAllowedNameChar c then some badChars
  else none

def reservedNames : List Text :=
  [lit "admin", lit "bbs", lit "system", lit "me", lit "all", lit "help", lit "root",
    lit "operator", lit "op"]

def validateName (lower : Text → Text) (name : Text) : Option Text :=
  if ¬ (nameMin ≤ name.length ∧ name.length ≤ nameMax) then
    some (if nameMax < name.length then lit "! Name too long (max " ++ decimal nameMax ++ lit ")"
      else lit "! Name too short")
  else match validateNameChars name with
    | some err => some err
    | none => if reservedNames.contains (lower name) then some (lit "! Reserved name") else none

end Names

end Bbs
