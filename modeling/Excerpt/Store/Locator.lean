import Excerpt.Text.Basic

/-!
Locators: the paths by which directives name sources. Segments are joined by slashes; a backslash parts
segments too.
-/

namespace Excerpt.Locator

/-- Whether the character parts the segments of a locator. -/
def isSeparator (c : Char) : Bool := c = '/' || c = '\\'

/-- The locator without separators at its end. -/
def trimEnd (s : Text) : Text := Text.dropEndWhile isSeparator s

def join (base name : Text) : Text :=
  let base := trimEnd base
  if base.isEmpty then name else base ++ '/' :: name

def fileName (s : Text) : Text := ((trimEnd s).reverse.takeWhile (! isSeparator ·)).reverse

end Excerpt.Locator
