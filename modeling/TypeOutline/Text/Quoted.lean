import TypeOutline.Text.VisibleTable

/-!
# Quoted text

Text between double quotes, in a form that shows every character: quotes and backslashes are
escaped, so are line breaks and tabs, and a character that would not be seen on its own is written
as its number.
-/

namespace TypeOutline.Text

/-- The digits of a character's number in base sixteen, without leading zeros. -/
def hexDigits (n : Nat) : List Char := Nat.toDigits 16 n

/-- A character by its number. -/
def numbered (c : Char) : List Char := ['\\', 'u', '\x7b'] ++ hexDigits c.toNat ++ ['\x7d']

/-- A character as it stands between the quotes. -/
def shown (c : Char) : List Char :=
  if c = '\x00' then ['\\', '0']
  else if c = '\t' then ['\\', 't']
  else if c = '\r' then ['\\', 'r']
  else if c = '\n' then ['\\', 'n']
  else if c = '"' then ['\\', '"']
  else if c = '\\' then ['\\', '\\']
  else if 0x20 ≤ c.toNat && c.toNat < 0x7F then [c]
  else if inRanges extenderRanges c.toNat then numbered c
  else if inRanges glyphlessRanges c.toNat then numbered c
  else [c]

/-- The text between double quotes. -/
def quoted (s : String) : String :=
  String.ofList ('"' :: s.toList.flatMap shown ++ ['"'])

end TypeOutline.Text
