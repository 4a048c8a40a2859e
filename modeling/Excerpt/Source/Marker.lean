import Excerpt.Source.File

/-!
Markers: the preprocessor lines and comments of a source file that open and close excerpts. Together with
the declarations, in the order of the text, they are the events among which an excerpt is looked for.
-/

namespace Excerpt

/-- The two sorts of markers: `#region NAME` with `#endregion`, and `// begin-snippet: NAME` with
`// end-snippet`. -/
inductive MarkerKind where
  | region
  | comment
  deriving DecidableEq, Repr

/-- A place in a source file at which an excerpt can begin or end: a marker that opens one with a label,
a marker that closes one, or a declaration. -/
inductive Event where
  | opener (kind : MarkerKind) (label : Text) (marker : Span)
  | closer (kind : MarkerKind) (start : Nat)
  | declaration (d : Declaration)
  deriving DecidableEq, Repr

namespace Event

def offset : Event → Nat
  | opener _ _ marker => marker.start
  | closer _ start => start
  | declaration d => d.anchor

/-- The marker that a preprocessor line is: its first word tells, and the rest is the label. -/
def ofDirective? (t : Token) : Option Event :=
  let line := Text.trimStart (t.text.dropWhile (· = '#'))
  let (word, label) := (Text.splitFirst? isWhiteSpace line).getD (line, [])
  if Text.eqIgnoreCase word "region".toList then
    some (.opener .region (Text.trim label) ⟨t.start, t.stop⟩)
  else if Text.eqIgnoreCase word "endregion".toList then some (.closer .region t.start)
  else none

/-- The start of a comment that opens an excerpt. -/
def commentBegin : Text := "// begin-snippet: ".toList

/-- The start of a comment that closes an excerpt. -/
def commentEnd : Text := "// end-snippet".toList

def ofComment? (t : Token) : Option Event :=
  match Text.dropPrefixIgnoreCase? commentBegin t.text with
  | some label => some (.opener .comment (Text.trim label) ⟨t.start, t.stop⟩)
  | none =>
    if Text.startsWithIgnoreCase commentEnd t.text then some (.closer .comment t.start) else none

def ofToken? (t : Token) : Option Event :=
  match t.kind with
  | .directive => ofDirective? t
  | .lineComment => ofComment? t
  | _ => none

end Event

/-- The markers and the declarations of a source file in the order of the text. -/
def SourceFile.events (file : SourceFile) : List Event :=
  let markers := file.layout.tokens.toList.filterMap Event.ofToken?
  let declarations := file.declarations.toList.map Event.declaration
  -- the sort is stable: of two events at one offset the marker comes first
  (markers ++ declarations).mergeSort fun a b => a.offset ≤ b.offset

end Excerpt
