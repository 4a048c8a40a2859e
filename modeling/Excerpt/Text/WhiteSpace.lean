/-!
White space: the characters that trimming removes and that a blank line is made of.
-/

namespace Excerpt

/-- Whether the character has the Unicode property White_Space. -/
def isWhiteSpace (c : Char) : Bool :=
  let n := c.toNat
  (9 ≤ n && n ≤ 13) || n = 32 || n = 0x85 || n = 0xA0 || n = 0x1680 ||
    (0x2000 ≤ n && n ≤ 0x200A) || n = 0x2028 || n = 0x2029 || n = 0x202F || n = 0x205F ||
    n = 0x3000

/-- Whether the character is a space or a tab, the only characters that indent a line. -/
def isIndent (c : Char) : Bool := c = ' ' || c = '\t'

theorem isWhiteSpace_of_isIndent {c : Char} (h : isIndent c = true) : isWhiteSpace c = true := by
  simp only [isIndent, Bool.or_eq_true, decide_eq_true_eq] at h
  rcases h with rfl | rfl <;> decide

end Excerpt
