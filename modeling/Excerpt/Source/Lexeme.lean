import Excerpt.Source.Token
import Excerpt.Text.Letter

/-!
Lexemes: how far the token at the start of a text reaches. Each recogniser gets the text behind the
characters that led to it and says how many characters of it the token takes. A token is the longest
one that fits; where a literal is not closed, the token is an operator that reaches to the character
with which no literal could go on.
-/

namespace Excerpt.Lexeme

/-- Whether a name can begin with the character. -/
def isNameStart (c : Char) : Bool := c = '_' || isLetter c

/-- Whether a name can go on with the character. -/
def isNamePart (c : Char) : Bool := c = '_' || isLetter c || isNumber c

/-- Whether a number can go on with the character. -/
def isNumberPart (c : Char) : Bool := c = '_' || c.isAlphanum

/-- The length of the text up to its first line feed. -/
def restOfLine (s : Text) : Nat := (s.takeWhile (· ≠ '\n')).length

/-- The rest of a literal in `quote`s, and whether it is closed. A backslash takes the next character
along; a line feed does not belong to the literal. -/
def quotedRest (quote : Char) : Text → Nat × Bool
  | [] => (0, false)
  | c :: s =>
    if c = quote then (1, true)
    else if c = '\n' then (0, false)
    else if c = '\\' then
      match s with
      | [] => (1, false)
      | d :: s =>
        if d = '\n' then (1, false)
        else
          let (n, closed) := quotedRest quote s
          (n + 2, closed)
    else
      let (n, closed) := quotedRest quote s
      (n + 1, closed)

/-- The kind of a literal that may lack its closing. -/
def literalKind (closed : Bool) : TokenKind := if closed then .literal else .operator

/-- The rest of a literal in double quotes with escapes. -/
def stringRest (s : Text) : TokenKind × Nat :=
  let (n, closed) := quotedRest '"' s
  (literalKind closed, n)

/-- The rest of a literal in single quotes, which is not empty. -/
def characterRest (s : Text) : TokenKind × Nat :=
  match s with
  | '\'' :: _ => (.operator, 0)
  | s =>
    let (n, closed) := quotedRest '\'' s
    (literalKind closed, n)

/-- The rest of a verbatim literal, in which a doubled quote stands for one, up to the last quote that
can close it. -/
def verbatimClose? : Text → Option Nat
  | [] => none
  -- a doubled quote goes on, but where nothing closes the literal later its first half does
  | '"' :: '"' :: s => some (match verbatimClose? s with
    | some n => n + 2
    | none => 1)
  | '"' :: _ => some 1
  | _ :: s => (verbatimClose? s).map (· + 1)

/-- The rest of a verbatim literal, or all of the text where nothing closes it. -/
def verbatimRest (s : Text) : TokenKind × Nat :=
  match verbatimClose? s with
  | some n => (.literal, n)
  | none => (.operator, s.length)

/-- The rest of a raw literal behind its first three quotes: more quotes, and all up to a run of as
many quotes as opened it. Without such a run only the quotes belong to the token. -/
def rawRest (s : Text) : TokenKind × Nat :=
  let more := (s.takeWhile (· = '"')).length
  let quotes := more + 3
  match Text.splitAt? (List.replicate quotes '"') (s.drop more) with
  | some (body, _) => (.literal, more + body.length + quotes)
  | none => (.operator, more)

/-- The token with `n` more characters in front of its rest. -/
def after (n : Nat) : TokenKind × Nat → TokenKind × Nat
  | (kind, rest) => (kind, n + rest)

/-- Behind a double quote. -/
def afterQuote (s : Text) : TokenKind × Nat :=
  match s with
  | '"' :: '"' :: s => after 2 (rawRest s)
  | s => stringRest s

/-- Behind a slash. -/
def afterSlash (s : Text) : TokenKind × Nat :=
  match s with
  | '/' :: s => (.lineComment, 1 + restOfLine s)
  | '*' :: s =>
    match Text.splitAt? ['*', '/'] s with
    | some (body, _) => (.blockComment, 1 + body.length + 2)
    | none => (.operator, 0)
  | '=' :: _ => (.operator, 1)
  | _ => (.operator, 0)

/-- Behind a number sign: a word makes it a preprocessor line. -/
def afterHash (s : Text) : TokenKind × Nat :=
  let blanks := s.takeWhile isIndent
  match s.drop blanks.length with
  | c :: _ => if c.isAlpha then (.directive, restOfLine s) else (.operator, blanks.length)
  | [] => (.operator, blanks.length)

/-- Behind a dollar sign, with which interpolated literals of all sorts begin. -/
def afterDollar (s : Text) : TokenKind × Nat :=
  let dollars := (s.takeWhile (· = '$')).length
  match s.drop dollars with
  | '"' :: '"' :: '"' :: s => after (dollars + 3) (rawRest s)
  | '"' :: s =>
    -- several dollar signs begin raw literals only
    if dollars = 0 then after 1 (stringRest s)
    else (.operator, dollars + 1 + (s.takeWhile (· = '"')).length)
  | '@' :: s =>
    if dollars = 0 then
      match s with
      | '"' :: s => after 2 (verbatimRest s)
      | _ => (.operator, 1)
    else (.operator, dollars)
  | _ => (.operator, dollars)

/-- Behind an at sign: a verbatim literal or a name. A character that shares its first byte with a
letter goes with the at sign although it makes no name. -/
def afterAt (s : Text) : TokenKind × Nat :=
  match s with
  | '"' :: s => after 1 (verbatimRest s)
  | '$' :: '"' :: s => after 2 (verbatimRest s)
  | '$' :: _ => (.operator, 1)
  | c :: s =>
    if isNameStart c then (.ident, 1 + (s.takeWhile isNamePart).length)
    else if beginsLikeLetter c then (.operator, 1)
    else (.operator, 0)
  | [] => (.operator, 0)

/-- Behind the first digit of a number. -/
def afterDigit (s : Text) : TokenKind × Nat :=
  let whole := (s.takeWhile isNumberPart).length
  match s.drop whole with
  | '.' :: d :: s =>
    if d.isDigit then (.number, whole + 2 + (s.takeWhile isNumberPart).length) else (.number, whole)
  | _ => (.number, whole)

/-- The operators of several characters, longer ones first. -/
def compoundOperators : List Text :=
  ["??=", "<<=", "==", "!=", "<=", ">=", "+=", "-=", "*=", "/=", "%=", "&=", "|=", "^=", "&&",
    "||", "++", "--", "<<", "??", "->", "::"].map String.toList

/-- The kind of a token of one character. -/
def singleKind : Char → TokenKind
  | '\x7b' => .braceOpen
  | '\x7d' => .braceClose
  | '(' => .parenOpen
  | ')' => .parenClose
  | '[' => .bracketOpen
  | ']' => .bracketClose
  | '<' => .angleOpen
  | '>' => .angleClose
  | ';' => .semicolon
  | ',' => .comma
  | '.' => .dot
  | ':' => .colon
  | '~' => .tilde
  | '=' => .assign
  | _ => .operator

/-- Behind any other character: an operator, a bracket, a separator, or a character of no token. -/
def afterOther (c : Char) (s : Text) : TokenKind × Nat :=
  if c = '=' && s.head? = some '>' then (.arrow, 1)
  else
    match compoundOperators.find? (List.isPrefixOf · (c :: s)) with
    | some operator => (.operator, operator.length - 1)
    | none => (singleKind c, 0)

/-- The kind of the token that begins with `c`, and how many characters of the text behind `c` it
takes. -/
def recognise (c : Char) (s : Text) : TokenKind × Nat :=
  if c = '/' then afterSlash s
  else if c = '#' then afterHash s
  else if c = '"' then afterQuote s
  else if c = '\'' then characterRest s
  else if c = '$' then afterDollar s
  else if c = '@' then afterAt s
  else if c.isDigit then afterDigit s
  else if isNameStart c then (.ident, (s.takeWhile isNamePart).length)
  else afterOther c s

/-- Whether the character stands between tokens and belongs to none. -/
def isSkipped (c : Char) : Bool :=
  c = ' ' || c = '\t' || c = '\r' || c = '\n' || c = '\x0c' || c = '\uFEFF'

end Lexeme

/-- The tokens of a text that starts at `offset`. -/
def tokensFrom (offset : Nat) (s : Text) : List Token :=
  match s with
  | [] => []
  | c :: rest =>
    if Lexeme.isSkipped c then tokensFrom (offset + c.utf8Size) rest
    else
      let (kind, n) := Lexeme.recognise c rest
      let text := c :: rest.take n
      ⟨kind, text, offset⟩ :: tokensFrom (offset + Text.width text) (rest.drop n)
termination_by s.length
decreasing_by all_goals simp; try omega

def tokenize (s : Text) : List Token := tokensFrom 0 s

end Excerpt
