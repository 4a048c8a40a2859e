import Excerpt.Text.Basic

/-!
Lines. A text is a sequence of lines, each with the terminator that it was written with; joining them
again gives the text back.
-/

namespace Excerpt

/-- What ends a line. Only the last line of a text can have no terminator. -/
inductive Terminator where
  | none
  | lf
  | crlf
  deriving DecidableEq, Repr

def Terminator.text : Terminator → Text
  | .none => []
  | .lf => ['\n']
  | .crlf => ['\r', '\n']

/-- A line: its text and its terminator. -/
structure Line where
  text : Text
  terminator : Terminator
  deriving DecidableEq, Repr

namespace Line

def written (l : Line) : Text := l.text ++ l.terminator.text

/-- The text of the line without the white space at its ends. -/
def trimmed (l : Line) : Text := Text.trim l.text

/-- The line that ends in a line feed after `s`: a carriage return before the line feed belongs to
the terminator. -/
def ofTerminated (s : Text) : Line :=
  match s.getLast? with
  | some '\r' => ⟨s.dropLast, .crlf⟩
  | _ => ⟨s, .lf⟩

end Line

namespace Text

/-- The lines of a text. A line feed ends a line, and an end of the text right after one starts none. -/
def lines (s : Text) : List Line :=
  -- `current` holds the line so far, its last character first
  let rec go (current : Text) : Text → List Line
    | [] => if current.isEmpty then [] else [⟨current.reverse, .none⟩]
    | c :: rest =>
      if c = '\n' then Line.ofTerminated current.reverse :: go [] rest else go (c :: current) rest
  go [] s

/-- The text with every line feed written as `terminator`. -/
def withTerminator (terminator : Terminator) (s : Text) : Text :=
  match terminator with
  | .lf => s
  | t => s.flatMap fun c => if c = '\n' then t.text else [c]

end Text

end Excerpt
