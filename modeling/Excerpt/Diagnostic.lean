import Excerpt.Text.Basic

/-!
What a user is told about a failure.
-/

namespace Excerpt

/-- The description of a failure: what went wrong, a stable code for it, and advice where there is any. -/
structure Diagnostic where
  message : String
  code : String
  help : Option String
  deriving DecidableEq, Repr

/-- The text as part of a message. -/
def shown (s : Text) : String := String.ofList s

end Excerpt
