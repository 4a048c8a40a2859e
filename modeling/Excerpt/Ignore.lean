import Excerpt.Glob.Match
import Excerpt.Text.Lines
import Excerpt.Tree.Path

/-!
Ignore rules: patterns, one a line, of paths that are passed over. The last rule that matches a path
decides, so that later rules can readmit what earlier ones exclude.
-/

namespace Excerpt

/-- A rule: the shape of the paths that it is about, whether it readmits them, and whether it is only
about directories. -/
structure IgnoreRule where
  shape : Shape
  readmits : Bool
  directoriesOnly : Bool
  deriving DecidableEq, Repr

/-- Why a line is no rule: `rule`, the part of it that counts, is no glob pattern. -/
structure IgnoreError where
  rule : Text
  cause : GlobError
  deriving DecidableEq, Repr

namespace IgnoreRule

/-- The part of a line that counts: white space at its end does not, unless the last character is an
escaped space. -/
def ruleOf (line : Text) : Text :=
  if ['\\', ' '].isSuffixOf line then line else Text.trimEnd line

/-- Reads the marks at the start of a rule: whether an exclamation mark makes it readmit, whether a slash
ties it to the root, and what is left. A backslash takes the meaning from the mark behind it. -/
def readMarks (rule : Text) : Bool × Bool × Text :=
  match rule with
  | '\\' :: '!' :: rest => (false, false, '!' :: rest)
  | '\\' :: '#' :: rest => (false, false, '#' :: rest)
  | '!' :: '/' :: rest => (true, true, rest)
  | '!' :: rest => (true, false, rest)
  | '/' :: rest => (false, true, rest)
  | rest => (false, false, rest)

/-- Reads the mark at the end of a rule: whether a slash restricts it to directories, and what is left
without the slash and a backslash before it. -/
def readEnd (rule : Text) : Bool × Text :=
  if rule.getLast? = some '/' then
    let rest := rule.dropLast
    (true, if rest.getLast? = some '\\' then rest.dropLast else rest)
  else (false, rule)

/-- The glob pattern of a rule without its marks. A pattern that is not tied to the root and has no slash
holds in every directory; one that ends in `/**` is about what lies inside. -/
def globOf (tied : Bool) (rule : Text) : Text :=
  let everywhere := "**/".toList
  let anchored := tied || rule.contains '/' || rule = ['*', '*']
  let glob := if anchored then rule else everywhere ++ rule
  if ['/', '*', '*'].isSuffixOf glob then glob ++ ['/', '*'] else glob

/-- Reads a line. Blank lines and those that start with a number sign hold no rule. -/
def parse (line : Text) : Except IgnoreError (Option IgnoreRule) :=
  let rule := ruleOf line
  if line.head? = some '#' || rule.isEmpty then .ok none
  else
    -- the number sign counts before white space is cut off, the other marks after that
    let (readmits, tied, rest) := readMarks rule
    let (directoriesOnly, rest) := readEnd rest
    match Glob.read true (globOf tied rest) with
    | .error cause => .error ⟨rule, cause⟩
    | .ok items => .ok (some ⟨Glob.shape .noSlash items, readmits, directoriesOnly⟩)

def covers (rule : IgnoreRule) (path : Path) (isDirectory : Bool) : Bool :=
  (isDirectory || ! rule.directoriesOnly) && rule.shape.fits (Utf8.encode path.text)

/-- Whether the rules exclude a path. -/
def excludes (rules : List IgnoreRule) (path : Path) (isDirectory : Bool) : Bool :=
  match rules.reverse.find? fun rule => rule.covers path isDirectory with
  | some rule => ! rule.readmits
  | none => false

/-! ## Files of rules -/

/-- What stands between the line feeds of a file. -/
def splitBytes (current : List UInt8) : List UInt8 → List (List UInt8)
  | [] => [current.reverse]
  | b :: rest => if b = 0x0A then current.reverse :: splitBytes [] rest else splitBytes (b :: current) rest

/-- The text that the bytes spell up to the first line that is not UTF-8. -/
def readable (content : ByteArray) : Text :=
  match Utf8.decode? content with
  | some s => s
  | none =>
    let lines := (splitBytes [] content.toList).map fun bytes => Utf8.decode? bytes.toByteArray
    (lines.takeWhile Option.isSome).flatMap fun line => line.getD [] ++ ['\n']

/-- The rules in a file. Byte order marks at its start do not count, and lines that are no rules are passed
over. -/
def ofFile (content : ByteArray) : List IgnoreRule :=
  let s := (readable content).dropWhile (· = '\uFEFF')
  (Text.lines s).filterMap fun line =>
    match parse line.text with
    | .ok rule => rule
    | .error _ => none

end IgnoreRule

end Excerpt
