import Excerpt.Text.Basic

/-!
Decimal numerals: the number that a run of digits spells, and the digits of a number.
-/

namespace Excerpt

/-- The number that the characters spell in base ten, each character counting as a digit. -/
def ofDigits (s : Text) : Nat := s.foldl (fun n c => 10 * n + (c.toNat - '0'.toNat)) 0

/-- The number that a non-empty run of digits spells. -/
def ofDigits? (s : Text) : Option Nat :=
  if s.isEmpty || ! s.all Char.isDigit then none else some (ofDigits s)

/-- The decimal digits of a number. -/
def digits (n : Nat) : Text := Nat.toDigits 10 n

/-- The value of a hexadecimal digit. -/
def hexDigit? (c : Char) : Option Nat :=
  if c.isDigit then some (c.toNat - '0'.toNat)
  else if 'a' ≤ c && c ≤ 'f' then some (c.toNat - 'a'.toNat + 10)
  else if 'A' ≤ c && c ≤ 'F' then some (c.toNat - 'A'.toNat + 10)
  else none

end Excerpt
