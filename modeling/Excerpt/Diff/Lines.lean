import Excerpt.Diff.Tidy

/-!
Differences of texts line by line. Here a carriage return alone ends a line too.
-/

namespace Excerpt.Diff

def linesOf (s : Text) : List Text :=
  let rec go (current : Text) : Text → List Text
    | [] => if current.isEmpty then [] else [current.reverse]
    | '\r' :: '\n' :: rest => ('\n' :: '\r' :: current).reverse :: go [] rest
    | c :: rest => if c = '\n' || c = '\r' then (c :: current).reverse :: go [] rest else go (c :: current) rest
  go [] s

/-- A line that ends, if need be in a line feed. -/
def ended (line : Text) : Text :=
  if line.getLast? = some '\n' || line.getLast? = some '\r' then line else line ++ ['\n']

def lineChanges (old new : Text) : List (Change Text) := changes (linesOf old) (linesOf new)

end Excerpt.Diff
