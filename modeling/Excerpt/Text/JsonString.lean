import Excerpt.Text.Basic

/-!
Texts as JSON strings. Quotes, backslashes and control characters are escaped, all else stays as it is.
-/

namespace Excerpt.Text

def hexDigit (n : Nat) : Char := Nat.digitChar n

def jsonEscape (c : Char) : Text :=
  if c = '"' then ['\\', '"']
  else if c = '\\' then ['\\', '\\']
  else if c = '\n' then ['\\', 'n']
  else if c = '\r' then ['\\', 'r']
  else if c = '\t' then ['\\', 't']
  else if c = '\x08' then ['\\', 'b']
  else if c = '\x0c' then ['\\', 'f']
  else if c.toNat < 0x20 then ['\\', 'u', '0', '0', hexDigit (c.toNat / 16), hexDigit (c.toNat % 16)]
  else [c]

/-- The text as a JSON string, with its quotes. -/
def jsonString (s : Text) : Text := '"' :: s.flatMap jsonEscape ++ ['"']

end Excerpt.Text
