import Excerpt.Text.Basic

/-!
Comparison of texts that ignores the case of the ASCII letters and of no others.
-/

namespace Excerpt.Text

/-- The text with its ASCII capitals in lower case. -/
def lower (s : Text) : Text := s.map Char.toLower

/-- Whether the two texts differ at most in the case of ASCII letters. -/
def eqIgnoreCase (s t : Text) : Bool := lower s == lower t

/-- What follows `start` in the text, where the text begins with it up to the case of ASCII letters. -/
def dropPrefixIgnoreCase? : (start : Text) → Text → Option Text
  | [], s => some s
  | _ :: _, [] => none
  | p :: start, c :: s => if p.toLower = c.toLower then dropPrefixIgnoreCase? start s else none

/-- Whether the text begins with `start` up to the case of ASCII letters. -/
def startsWithIgnoreCase (start s : Text) : Bool := (dropPrefixIgnoreCase? start s).isSome

end Excerpt.Text
