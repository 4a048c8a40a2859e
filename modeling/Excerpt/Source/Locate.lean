import Excerpt.Fragment
import Excerpt.Source.Marker

/-!
Finding an excerpt in a source file by its name, and taking it out.
-/

namespace Excerpt

/-- Where an excerpt is: the range that it covers, and the offset from which its indentation is
measured. -/
structure Located where
  span : Span
  anchor : Nat
  deriving DecidableEq, Repr

/-- Why there is no excerpt of a name: nothing has the name, or the marker that has it is not closed. -/
inductive Unlocated where
  | notFound
  | unclosed
  deriving DecidableEq, Repr

namespace SourceFile

/-- Whether an excerpt of the given name begins at the event: its label starts with the name, or it is
a declaration which the name addresses, one with a body where only that is asked for. -/
def isNamed (file : SourceFile) (name : Text) (bodyOnly : Bool) : Event → Bool
  | .opener _ label _ => Text.startsWithIgnoreCase name label
  | .closer _ _ => false
  | .declaration d => file.matchesPath d name && (! bodyOnly || d.body.isSome)

/-- The offset of the marker among the events that closes an opener of its kind before them, where
`nested` more openers of the kind are to be closed before. -/
def closing? (kind : MarkerKind) (nested : Nat) : List Event → Option Nat
  | [] => none
  | .opener k _ _ :: rest => closing? kind (if k = kind then nested + 1 else nested) rest
  | .closer k start :: rest =>
    if k = kind then
      match nested with
      | 0 => some start
      | n + 1 => closing? kind n rest
    else closing? kind nested rest
  | .declaration _ :: rest => closing? kind nested rest

/-- The offset of the first token of code from the start of the range on, or else that start. -/
def firstCodeOffset (file : SourceFile) (span : Span) : Nat :=
  match file.layout.tokens.toList.find? fun t => span.start ≤ t.start && ! t.kind.isTrivia with
  | some t => t.start
  | none => span.start

def placeOf (file : SourceFile) (bodyOnly : Bool) (d : Declaration) : Located :=
  match bodyOnly, d.body with
  | true, some body => ⟨body, file.firstCodeOffset body⟩
  | _, _ => ⟨d.full, d.anchor⟩

/-- Where the excerpt of the given name is. The first event that has the name decides. -/
def locate (file : SourceFile) (name : Text) (bodyOnly : Bool) : Except Unlocated Located :=
  match file.events.dropWhile (! file.isNamed name bodyOnly ·) with
  | .opener kind _ marker :: rest =>
    match closing? kind 0 rest with
    | some stop => .ok ⟨⟨marker.stop, stop⟩, marker.start⟩
    | none => .error .unclosed
  | .declaration d :: _ => .ok (file.placeOf bodyOnly d)
  | _ => .error .notFound

/-- The lines of the first and of the last character in the range that is not white space, or twice the
line on which the range starts where there is none. -/
def lineRange (file : SourceFile) (span : Span) : LineRange :=
  let text := span.slice file.layout.text
  let leading := Text.width text - Text.width (Text.trimStart text)
  let trailing := Text.width (Text.trimEnd text)
  let line := file.layout.lines.lineOf
  -- of white space alone nothing is left between the two offsets
  if trailing ≤ leading then ⟨line span.start, line span.start⟩
  else ⟨line (span.start + leading), line (span.start + trailing - 1)⟩

/-- The language that a code block around an excerpt names. -/
def language : Text := "cs".toList

/-- The excerpt of the given name, moved to the left by the column at which it is anchored. -/
def extract (file : SourceFile) (source name : Text) (bodyOnly : Bool) : Except Unlocated Fragment :=
  (file.locate name bodyOnly).map fun place =>
    { source, name
      lines := some (file.lineRange place.span)
      content := Fragment.normalizeIndentation (place.span.slice file.layout.text)
        (file.layout.lines.columnOf place.anchor)
      kind := language }

end SourceFile

end Excerpt
