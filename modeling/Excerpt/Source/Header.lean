import Excerpt.Source.Code

/-!
Headers of members: the tokens in front of a member's body, value or end, and the name that they give
to the member.
-/

namespace Excerpt

/-- What follows a header: the block, semicolon, arrow or equals sign that is its first outside round
and square brackets, or none of these before the surrounding block or the text ends. -/
inductive HeaderEnd where
  | block
  | semicolon
  | arrow
  | assign
  | missing
  deriving DecidableEq, Repr

namespace HeaderEnd

/-- How a token outside brackets ends a header, if it does. -/
def ofKind? : TokenKind → Option HeaderEnd
  | .braceOpen => some block
  | .braceClose => some missing
  | .semicolon => some semicolon
  | .arrow => some arrow
  | .assign => some assign
  | _ => none

end HeaderEnd

/-- A kind of declaration. Dotted names address all but namespaces. -/
inductive DeclarationKind where
  | «namespace»
  | type
  | method
  | constructor
  | property
  | delegate
  deriving DecidableEq, Repr

/-- The namespace or type that a member stands in. -/
structure Enclosing where
  kind : DeclarationKind
  name : Text
  deriving DecidableEq, Repr

namespace Header

/-- The words that a type declaration is told by. -/
def typeWords : List Text := ["class", "struct", "interface", "enum", "record"].map String.toList

/-- The words that can stand before a round bracket in a header without naming a method. -/
def reservedWords : List Text :=
  ["base", "catch", "checked", "default", "fixed", "for", "foreach", "if", "lock", "nameof", "new",
    "return", "sizeof", "stackalloc", "switch", "this", "throw", "typeof", "unchecked", "using",
    "when", "where", "while"].map String.toList

/-- The number of tokens of the header at the start of the code, `depth` brackets deep, and what
follows it. -/
def measure (depth : Nat) : List Code → Nat × HeaderEnd
  | [] => (0, .missing)
  | t :: rest =>
    match t.kind with
    | .parenOpen | .bracketOpen => let (n, ending) := measure (depth + 1) rest; (n + 1, ending)
    -- a bracket that nothing opened leaves the depth at zero
    | .parenClose | .bracketClose => let (n, ending) := measure (depth - 1) rest; (n + 1, ending)
    | kind =>
      match if depth = 0 then HeaderEnd.ofKind? kind else none with
      | some ending => (0, ending)
      | none => let (n, ending) := measure depth rest; (n + 1, ending)

/-- A token of a header with the tokens before it, the nearest first, and those behind it. -/
structure Place where
  before : List Code
  token : Code
  behind : List Code
  deriving DecidableEq, Repr

/-- The places outside brackets, and those of the brackets that open there. -/
def topLevel (depth : Nat) (before : List Code) : List Code → List Place
  | [] => []
  | t :: rest =>
    match t.kind with
    | .parenOpen | .bracketOpen =>
      let more := topLevel (depth + 1) (t :: before) rest
      if depth = 0 then ⟨before, t, rest⟩ :: more else more
    | .parenClose | .bracketClose => topLevel (depth - 1) (t :: before) rest
    | _ =>
      let more := topLevel depth (t :: before) rest
      if depth = 0 then ⟨before, t, rest⟩ :: more else more

/-- The places of a header that are outside brackets. -/
def places (header : List Code) : List Place := topLevel 0 [] header

/-- Whether a parameter list, or what looks like one, opens at the place. -/
def Place.opensParameters (place : Place) : Bool := place.token.kind = .parenOpen

/-- The places before the first parameter list. -/
def placesBeforeParameters (header : List Code) : List Place :=
  (places header).takeWhile fun place => ! place.opensParameters

/-- The first place before the parameters that holds one of the words. -/
def findWord? (words : List Text) (header : List Code) : Option Place :=
  (placesBeforeParameters header).find? fun place => place.token.isOneOf words

/-- The name of a type: the identifier behind the word that tells it, or behind the `class` or
`struct` of a record. -/
def typeName? (place : Place) : Option Text :=
  let behind :=
    match place.behind with
    | t :: rest =>
      if place.token.isWord "record".toList && t.isOneOf ["class".toList, "struct".toList] then rest
      else t :: rest
    | [] => []
  match behind with
  | t :: _ => if t.kind = .ident && ! t.isOneOf typeWords then some t.plainName else none
  | [] => none

/-- What stands before the angle bracket that opens the type arguments whose tokens, the last one
first, the list begins with, `depth` brackets deep. -/
def dropTypeArguments? (depth : Nat) : List Code → Option (List Code)
  | [] => none
  | t :: rest =>
    match t.kind with
    | .angleClose => dropTypeArguments? (depth + 1) rest
    | .angleOpen => if depth ≤ 1 then some rest else dropTypeArguments? (depth - 1) rest
    | _ => dropTypeArguments? depth rest

/-- The identifier before a parameter list, without type arguments behind it, and the tokens before
that; all the lists hold the nearest token first. -/
def nameBefore? (before : List Code) : Option (Code × List Code) :=
  let named : Option (List Code) :=
    match before with
    | t :: _ => if t.kind = TokenKind.angleClose then dropTypeArguments? 0 before else some before
    | [] => none
  match named with
  | some (t :: rest) => if t.kind = TokenKind.ident then some (t, rest) else none
  | _ => none

/-- What stands before the qualifiers of a name, the nearest token first. -/
def dropQualifiers : List Code → List Code
  | dot :: name :: rest =>
    if dot.kind = .dot && name.kind = .ident then dropQualifiers rest else dot :: name :: rest
  | tokens => tokens

/-- Whether the token makes what it stands before an operator or a destructor. -/
def namesOperator (t : Code) : Bool := t.isWord "operator".toList || t.kind = .tilde

/-- The name of a method, constructor or delegate: the identifier before the first parameter list
that can be its own. A name with no return type before it must be that of the enclosing type. -/
def methodName? (enclosing : Option Enclosing) : List Place → Option Text
  | [] => none
  | place :: rest =>
    if ! place.opensParameters then methodName? enclosing rest
    else
      match nameBefore? place.before with
      | none => methodName? enclosing rest
      | some (name, before) =>
        if reservedWords.contains name.text then methodName? enclosing rest
        else if before.head?.any namesOperator then none
        else if (dropQualifiers before).isEmpty &&
            ! enclosing.any (fun e => e.kind = .type && e.name = name.plainName) then none
        else some name.plainName

/-- The name of a property: the last identifier of its header, which is not the first token there. -/
def propertyName? (header : List Code) : Option Text :=
  match header.reverse with
  | t :: _ :: _ =>
    if t.kind = .ident && t.text ≠ "this".toList && ! reservedWords.contains t.text then
      some t.plainName
    else none
  | _ => none

end Header

end Excerpt
