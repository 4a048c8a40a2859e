import Excerpt.Text.Lines

/-!
Fragments: the text of an excerpt and where it comes from.
-/

namespace Excerpt

/-- The first and the last line of an excerpt in its source, counted from zero. -/
structure LineRange where
  first : Nat
  last : Nat
  deriving DecidableEq, Repr

/-- An excerpt taken from its source. `kind` is the language that a code block around it names;
`lines` is absent where the source is not addressed by line. -/
structure Fragment where
  source : Text
  name : Text
  lines : Option LineRange
  content : Text
  kind : Text
  deriving DecidableEq, Repr

namespace Fragment

/-- The lines from the first to the last that holds something other than white space. -/
def dropBlankEdges (lines : List Text) : List Text :=
  ((lines.dropWhile Text.isBlank).reverse.dropWhile Text.isBlank).reverse

/-- The line without its first spaces and tabs, `indent` of them at most, and without carriage returns
at its end. -/
def stripIndent (indent : Nat) (line : Text) : Text :=
  let stripped := min indent (line.takeWhile isIndent).length
  Text.dropEndWhile (· = '\r') (line.drop stripped)

/-- The lines of the text without blank ones at the edges, each moved `indent` columns to the left as
far as its own indentation allows. -/
def normalizeIndentation (text : Text) (indent : Nat) : Text :=
  let lines := dropBlankEdges ((Text.lines text).map Line.text)
  ['\n'].intercalate (lines.map (stripIndent indent))

end Fragment

end Excerpt
