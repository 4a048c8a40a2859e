import Excerpt.Source.Header

/-!
Members: the declaration at the start of code that is not yet read. A member is read whole, but for
the members of a namespace or type, which are read next.
-/

namespace Excerpt

/-- The code inside a declaration: between two braces with something between them, or the expression
behind an arrow. Tokens are given by their positions in the code. -/
inductive BodyExtent where
  | block (opening closing : Nat)
  | expression (first last : Nat)
  deriving DecidableEq, Repr

namespace BodyExtent

/-- The body between the tokens at two positions, if there is something between them. -/
def between? (opening closing : Nat) : Option BodyExtent :=
  if closing ≤ opening + 1 then none else some (.block opening closing)

/-- The body with its positions counted from a token `n` tokens earlier. -/
def shift (n : Nat) : BodyExtent → BodyExtent
  | block opening closing => block (opening + n) (closing + n)
  | expression first last => expression (first + n) (last + n)

end BodyExtent

/-- What a declaration is, and what code belongs to it: from the token at `first` through the one at
`last`. -/
structure Declared where
  kind : DeclarationKind
  name : Text
  first : Nat
  last : Nat
  body : Option BodyExtent
  deriving DecidableEq, Repr

/-- What stands at the start of some code, positions being counted from there: a member with no
members of its own, of `length` tokens, which may declare something; or the start of a namespace or
type whose members follow behind the token at `header`. A block that is not `closable` ends only with
the text. -/
inductive Member where
  | whole (declared : Option Declared) (length : Nat)
  | opening (kind : DeclarationKind) (name : Text) (header : Nat) (closable : Bool)
  deriving DecidableEq, Repr

namespace Member

/-- The number of tokens that the member takes before the next one, or its own first member, begins. -/
def length : Member → Nat
  | whole _ n => n
  | opening _ _ header _ => header + 1

/-- The number of tokens of the attribute sections at the start of the code. -/
def attributesLength (code : List Code) : Nat :=
  match code with
  | [] => 0
  | t :: rest =>
    if t.kind = .bracketOpen then
      let n := Code.groupLength .bracketOpen .bracketClose 1 rest
      n + 1 + attributesLength (rest.drop n)
    else 0
termination_by code.length
decreasing_by
  simp only [List.length_drop, List.length_cons]
  omega

/-- The number of tokens of a member behind its header, where `tail` is the code from there on. -/
def tailLength (ending : HeaderEnd) (tail : List Code) : Nat :=
  match ending with
  | .block => Code.groupLength .braceOpen .braceClose 0 tail
  | .semicolon => 1
  | .arrow | .assign => Code.expressionLength 0 (tail.drop 1) + 1
  | .missing => 0

/-- The body of a member whose header ends at `header`, where `tail` is the code from there on. -/
def bodyOf (ending : HeaderEnd) (header : Nat) (tail : List Code) : Option BodyExtent :=
  match ending with
  | .block => BodyExtent.between? header (header + tailLength .block tail - 1)
  | .arrow =>
    let last := header + tailLength .arrow tail - 1
    -- the semicolon that ends the expression is no part of it
    let last := if (tail[last - header]?).any (·.kind = .semicolon) then last - 1 else last
    if header < last then some (.expression (header + 1) last) else none
  | _ => none

/-- The declaration of a member of `length` tokens, if it has a name. -/
def declare (kind : DeclarationKind) (name : Option Text) (length : Nat) (body : Option BodyExtent) :
    Member :=
  whole (name.map fun name => ⟨kind, name, 0, length - 1, body⟩) length

/-- The parts of a member: `attributes` tokens of attribute sections, the header, what follows it, and
the code from there on. -/
structure Parts where
  attributes : Nat
  header : List Code
  ending : HeaderEnd
  tail : List Code
  deriving DecidableEq, Repr

def split (code : List Code) : Parts :=
  let attributes := attributesLength code
  let rest := code.drop attributes
  let (n, ending) := Header.measure 0 rest
  ⟨attributes, rest.take n, ending, rest.drop n⟩

namespace Parts

def headerEnd (parts : Parts) : Nat := parts.attributes + parts.header.length

/-- The number of tokens of the member, if it has no members of its own. -/
def length (parts : Parts) : Nat := parts.headerEnd + tailLength parts.ending parts.tail

/-- The namespace that begins here. Without a block it goes on to the end of the text. -/
def asNamespace (parts : Parts) (place : Header.Place) : Member :=
  .opening .namespace (place.behind.flatMap Code.text) parts.headerEnd (parts.ending = .block)

/-- The type that begins here. An enumeration is read whole, and so is a type without a block. -/
def asType (parts : Parts) (place : Header.Place) (name : Text) : Member :=
  if parts.ending ≠ .block then declare .type (some name) parts.length none
  else if place.token.isWord "enum".toList then
    let body := bodyOf .block parts.headerEnd parts.tail
    let closed := parts.length
    let semicolon := (parts.tail[closed - parts.headerEnd]?).any (·.kind = .semicolon)
    declare .type (some name) (if semicolon then closed + 1 else closed) body
  else .opening .type name parts.headerEnd true

/-- The method or constructor that begins here; it is a constructor if it is named like what it
stands in. -/
def asMethod (parts : Parts) (enclosing : Option Enclosing) : Member :=
  let name := Header.methodName? enclosing (Header.places parts.header)
  let kind :=
    if enclosing.any fun e => some e.name = name then DeclarationKind.constructor else .method
  declare kind name parts.length (bodyOf parts.ending parts.headerEnd parts.tail)

/-- The property that begins here, with the value that may follow its accessors. -/
def asProperty (parts : Parts) : Member :=
  let name := Header.propertyName? parts.header
  let body := bodyOf parts.ending parts.headerEnd parts.tail
  let afterBody := parts.tail.drop (tailLength parts.ending parts.tail)
  let value :=
    match parts.ending, afterBody with
    | .block, t :: rest => if t.kind = .assign then Code.expressionLength 0 rest + 1 else 0
    | _, _ => 0
  declare .property name (parts.length + value) body

end Parts

/-- The member at the start of the code, which stands in `enclosing`. -/
def read (enclosing : Option Enclosing) (code : List Code) : Member :=
  let parts := split code
  let plain := whole none parts.length
  match Header.findWord? ["namespace".toList] parts.header with
  | some place => parts.asNamespace place
  | none =>
    let type? := do
      let place ← Header.findWord? Header.typeWords parts.header
      let name ← Header.typeName? place
      pure (place, name)
    match type? with
    | some (place, name) => parts.asType place name
    | none =>
      if (Header.findWord? ["event".toList] parts.header).isSome || parts.ending = .assign then plain
      else if (Header.findWord? ["delegate".toList] parts.header).isSome then
        declare .delegate (Header.methodName? enclosing (Header.places parts.header)) parts.length none
      else if (Header.places parts.header).any Header.Place.opensParameters then
        parts.asMethod enclosing
      else if parts.ending = .block || parts.ending = .arrow then parts.asProperty
      else plain

/-! ### A member takes at least one token -/

theorem tailLength_pos {ending : HeaderEnd} (t : Code) (rest : List Code) (h : ending ≠ .missing) :
    0 < tailLength ending (t :: rest) := by
  cases ending <;> simp_all [tailLength, Code.groupLength]
  repeat' split
  all_goals omega

theorem headerEnd_of_measure_eq_zero {t : Code} {rest : List Code}
    (h : (Header.measure 0 (t :: rest)).1 = 0) :
    HeaderEnd.ofKind? t.kind = some (Header.measure 0 (t :: rest)).2 := by
  revert h
  cases hk : t.kind <;> simp [Header.measure, hk, HeaderEnd.ofKind?]

theorem parts_length_pos (t : Code) (rest : List Code) (h : t.kind ≠ .braceClose) :
    0 < (split (t :: rest)).length := by
  simp only [split, Parts.length, Parts.headerEnd]
  by_cases ha : attributesLength (t :: rest) = 0
  · rw [ha]
    by_cases hn : (Header.measure 0 (t :: rest)).1 = 0
    · have hend := headerEnd_of_measure_eq_zero hn
      have hne : (Header.measure 0 (t :: rest)).2 ≠ .missing := by
        intro hm
        rw [hm] at hend
        revert hend h
        cases t.kind <;> simp [HeaderEnd.ofKind?]
      have := tailLength_pos t rest hne
      simp [hn]
      exact this
    · simp
      omega
  · omega

@[simp] theorem length_declare (kind : DeclarationKind) (name : Option Text) (n : Nat)
    (body : Option BodyExtent) : (declare kind name n body).length = n := rfl

theorem length_asType_pos {parts : Parts} (h : 0 < parts.length) (place : Header.Place)
    (name : Text) : 0 < (parts.asType place name).length := by
  simp only [Parts.asType]
  repeat' split
  all_goals first
    | exact h
    | exact Nat.succ_pos _

theorem length_pos (enclosing : Option Enclosing) (t : Code) (rest : List Code)
    (h : t.kind ≠ .braceClose) : 0 < (read enclosing (t :: rest)).length := by
  have hp := parts_length_pos t rest h
  simp only [read]
  repeat' split
  all_goals first
    | exact length_asType_pos hp _ _
    | exact Nat.succ_pos _
    | exact hp
    | exact Nat.lt_of_lt_of_le hp (Nat.le_add_right _ _)

end Member

end Excerpt
