import Excerpt.Source.Token

/-!
Code: the tokens of a source without comments and preprocessor lines, stripped of their place in the
text. What is declared in a source depends on its code alone.
-/

namespace Excerpt

/-- A token of code. -/
structure Code where
  kind : TokenKind
  text : Text
  deriving DecidableEq, Repr

namespace Code

/-- Whether the token is an identifier spelled `word`. -/
def isWord (word : Text) (t : Code) : Bool := t.kind = .ident && t.text = word

/-- Whether the token is an identifier spelled as one of the words. -/
def isOneOf (words : List Text) (t : Code) : Bool := words.any fun word => t.isWord word

/-- The identifier without the sign that lets a keyword be a name. -/
def plainName (t : Code) : Text := t.text.dropWhile (· = '@')

/-- The number of tokens from the start through the token that brings the depth of `opening` and
`closing` back to zero, or of all tokens where none does. -/
def groupLength (opening closing : TokenKind) (depth : Nat) : List Code → Nat
  | [] => 0
  | t :: rest =>
    if t.kind = opening then groupLength opening closing (depth + 1) rest + 1
    else if t.kind = closing then
      if depth ≤ 1 then 1 else groupLength opening closing (depth - 1) rest + 1
    else groupLength opening closing depth rest + 1

/-- The number of tokens of an expression: through the semicolon that ends it, or up to a brace that
closes what surrounds it, or to the end. -/
def expressionLength (depth : Nat) : List Code → Nat
  | [] => 0
  | t :: rest =>
    match t.kind with
    | .parenOpen | .bracketOpen | .braceOpen => expressionLength (depth + 1) rest + 1
    | .braceClose => if depth = 0 then 0 else expressionLength (depth - 1) rest + 1
    -- a bracket that nothing opened leaves the depth at zero
    | .parenClose | .bracketClose => expressionLength (depth - 1) rest + 1
    | .semicolon => if depth = 0 then 1 else expressionLength depth rest + 1
    | _ => expressionLength depth rest + 1

end Code

/-- The code among the tokens. -/
def codeOf (tokens : List Token) : List Code :=
  (tokens.filter fun t => ! t.kind.isTrivia).map fun t => ⟨t.kind, t.text⟩

end Excerpt
