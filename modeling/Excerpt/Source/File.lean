import Excerpt.Source.LineTable
import Excerpt.Source.Lexeme
import Excerpt.Source.Outline
import Excerpt.Text.AsciiCase

/-!
Source files: a text with its tokens and lines, and its declarations with the ranges of the text that
belong to them. A declaration takes along the comments directly above it and a comment behind it on its
last line, and begins at the start of its line where it is the first thing there.
-/

namespace Excerpt

/-- A range of a text in bytes, from `start` up to and without `stop`. -/
structure Span where
  start : Nat
  stop : Nat
  deriving DecidableEq, Repr

/-- The part of the text that the span covers. -/
def Span.slice (span : Span) (s : Text) : Text := Text.slice s span.start span.stop

/-- A declaration of a source file. `parent` is the index of the declaration that contains it, `full`
the range that belongs to it, `anchor` the offset of its first token and `body` the range inside it. -/
structure Declaration where
  kind : DeclarationKind
  name : Text
  parent : Option Nat
  full : Span
  anchor : Nat
  body : Option Span
  deriving DecidableEq, Repr

/-- The tokens and lines of a text. `code` holds the indices of the tokens that are code. -/
structure Layout where
  text : Text
  tokens : Array Token
  code : Array Nat
  lines : LineTable
  deriving DecidableEq, Repr

namespace Layout

/-- The layout of a text. -/
def ofText (text : Text) : Layout :=
  let tokens := (tokenize text).toArray
  { text, tokens
    code := (Array.range tokens.size).filter fun i => tokens[i]?.any fun t => ! t.kind.isTrivia
    lines := LineTable.ofText text }

/-- The token at the position in the code, with its index. -/
def codeToken? (l : Layout) (position : Nat) : Option (Nat × Token) := do
  let index ← l.code[position]?
  let token ← l.tokens[index]?
  pure (index, token)

/-- The line on which a token starts. -/
def firstLine (l : Layout) (t : Token) : Nat := l.lines.lineOf t.start

/-- The line on which a token ends. -/
def lastLine (l : Layout) (t : Token) : Nat := l.lines.lineOf (t.stop - 1)

/-- Whether the token at the index is the first one on its line. -/
def startsLine (l : Layout) : Nat → Bool
  | 0 => true
  | i + 1 =>
    match l.tokens[i]?, l.tokens[i + 1]? with
    | some previous, some t => l.lastLine previous < l.firstLine t
    | _, _ => false

/-- The index of the first of the comments that belong to what starts at the index on the given line:
each begins its line, and ends on the line before what follows it or later. -/
def withLeadingComments (l : Layout) (line : Nat) : Nat → Nat
  | 0 => 0
  | i + 1 =>
    match l.tokens[i]? with
    | some previous =>
      -- no blank line stands between the comment and what it belongs to
      if previous.kind.isComment && line ≤ l.lastLine previous + 1 && l.startsLine i then
        l.withLeadingComments (l.firstLine previous) i
      else i + 1
    | none => i + 1

/-- The offset of a token, or that of its line if the token is the first thing there. -/
def lineStartOrToken (l : Layout) (index : Nat) (t : Token) : Nat :=
  if l.startsLine index then l.lines.startOfLineAt t.start else t.start

/-- The offset at which a declaration begins whose first token is at the position. -/
def startOffset (l : Layout) (position : Nat) : Nat :=
  match l.codeToken? position with
  | none => Text.width l.text
  | some (index, t) =>
    let first := l.withLeadingComments (l.firstLine t) index
    match l.tokens[first]? with
    | none => t.start
    | some t => l.lineStartOrToken first t

/-- The offset at which a declaration ends whose last token is at the position. -/
def endOffset (l : Layout) (position : Nat) : Nat :=
  match l.codeToken? position with
  | none => Text.width l.text
  | some (index, t) =>
    match l.tokens[index + 1]? with
    | some next =>
      if next.kind.isComment && l.firstLine next = l.firstLine t then next.stop else t.stop
    | none => t.stop

/-- The offset of the token at the position. -/
def anchor (l : Layout) (position : Nat) : Nat :=
  match l.codeToken? position with
  | none => Text.width l.text
  | some (_, t) => t.start

/-- The range between the tokens at two positions: from the line behind the first one, or from what
follows it on its line, to the end of what stands before the second one. -/
def between? (l : Layout) (opening closing : Nat) : Option Span := do
  let (i, open_) ← l.codeToken? opening
  let (j, _) ← l.codeToken? closing
  let first ← l.tokens[i + 1]?
  let last ← l.tokens[j - 1]?
  let start :=
    if l.firstLine first = l.firstLine open_ then first.start
    else l.lines.startOfLineAt first.start
  pure ⟨start, last.stop⟩

/-- The range of a body. -/
def bodySpan? (l : Layout) : BodyExtent → Option Span
  | .block opening closing => l.between? opening closing
  | .expression first last => do
    let (_, t) ← l.codeToken? first
    let (_, u) ← l.codeToken? last
    pure ⟨t.start, u.stop⟩

/-- The declaration that an entry of the outline stands for. -/
def declaration (l : Layout) (entry : OutlineEntry) : Declaration :=
  let d := entry.declared
  { kind := d.kind, name := d.name, parent := entry.parent
    full := ⟨l.startOffset d.first, l.endOffset d.last⟩
    anchor := l.anchor d.first
    body := d.body.bind l.bodySpan? }

end Layout

/-- A source file: its layout and its declarations in the order of the text. -/
structure SourceFile where
  layout : Layout
  declarations : Array Declaration
  deriving DecidableEq, Repr

namespace SourceFile

/-- Reads a source file. There is none where its code has no outline. -/
def parse? (text : Text) : Option SourceFile :=
  let layout := Layout.ofText text
  (Outline.read? (codeOf layout.tokens.toList)).map fun nodes =>
    let entries := OutlineNode.entriesAll none 0 nodes
    ⟨layout, (entries.map layout.declaration).toArray⟩

/-- Whether the declaration and, in turn, those that contain it have the given names, up to case. -/
def namesMatch (file : SourceFile) : Option Declaration → List Text → Bool
  | _, [] => true
  | none, _ :: _ => false
  | some d, name :: outer =>
    d.kind ≠ .namespace && Text.eqIgnoreCase d.name name &&
      file.namesMatch (d.parent.bind fun i => file.declarations[i]?) outer

/-- Whether the dotted path addresses the declaration: its last name is the declaration's, the one
before that of the type which contains it, and so on. -/
def matchesPath (file : SourceFile) (d : Declaration) (path : Text) : Bool :=
  file.namesMatch (some d) (path.splitOn '.').reverse

end SourceFile

end Excerpt
