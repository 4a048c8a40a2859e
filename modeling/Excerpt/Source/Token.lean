import Excerpt.Text.Basic

/-!
Tokens of C# source text. Only what finding declarations and markers needs is told apart: literals are
opaque, and most operators are of one kind.
-/

namespace Excerpt

inductive TokenKind where
  | lineComment
  | blockComment
  | directive
  | literal
  | number
  | ident
  | braceOpen
  | braceClose
  | parenOpen
  | parenClose
  | bracketOpen
  | bracketClose
  | angleOpen
  | angleClose
  | semicolon
  | comma
  | dot
  | colon
  | tilde
  | assign
  | arrow
  | operator
  deriving DecidableEq, Repr

namespace TokenKind

def isComment : TokenKind → Bool
  | lineComment | blockComment => true
  | _ => false

/-- Whether the token is no code: a comment or a preprocessor line. -/
def isTrivia : TokenKind → Bool
  | lineComment | blockComment | directive => true
  | _ => false

end TokenKind

/-- A token: its kind, its text and the byte offset at which it starts. -/
structure Token where
  kind : TokenKind
  text : Text
  start : Nat
  deriving DecidableEq, Repr

def Token.stop (t : Token) : Nat := t.start + Text.width t.text

end Excerpt
