import Excerpt.Text.Basic

/-!
Paths. In a tree of files a path is the list of the names that lead to a place from the root; a written
path parts the names by slashes.
-/

namespace Excerpt

/-- The names that lead from the root of a tree to a place in it. -/
abbrev Path := List Text

namespace Path

def text (path : Path) : Text := ['/'].intercalate path

/-- What stands between the slashes of a written path. -/
def steps (s : Text) : List Text :=
  let rec go (current : Text) : Text → List Text
    | [] => [current.reverse]
    | c :: rest => if c = '/' then current.reverse :: go [] rest else go (c :: current) rest
  go [] s

/-- Whether something in a directory can have the name. -/
def isName (name : Text) : Bool :=
  ! name.isEmpty && name ≠ ['.'] && name ≠ ['.', '.'] && ! name.contains '/' && ! name.contains '\x00'

/-- Whether a written path starts at the root of everything. -/
def isAbsolute (s : Text) : Bool := s.head? = some '/'

/-- A written path as seen from another one: an absolute one stays as it is. -/
def joinWritten (base sub : Text) : Text :=
  if isAbsolute sub then sub
  else if base.isEmpty || base.getLast? = some '/' then base ++ sub
  else base ++ '/' :: sub

/-- What follows the last dot of a name. A name has no extension where nothing comes before that dot. -/
def extension? (name : Text) : Option Text :=
  match Text.splitLast? (· = '.') name with
  | some (_ :: _, extension) => some extension
  | _ => none

/-- Whether the path comes before the other one or is it, name by name. -/
def le (a b : Path) : Bool := ! (b < a)

end Path

end Excerpt
