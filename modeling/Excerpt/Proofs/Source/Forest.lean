import Excerpt.Proofs.Source.Spelling
import Excerpt.Source.Outline

/-!
# Excerpt — forests of declarations

Well-formed code as a tree: namespaces and types with the members in them, and members of the other sorts,
each as it is spelled and with what it declares. A tree carries the proofs that its parts are well-formed,
so that every tree is some code's.

* **`Ending`** — what stands behind a header.
* **`LeafMember`**, **`BlockHeader`**, **`Forest`** — members that are read whole, headers of namespaces
  and types, and forests of both, with the `code` of each.
* **`Forest.IsNamed`** — methods and constructors are named as they must be to be told apart.
* **`Forest.entries`** — the declarations of a forest in the order of the text.
-/

namespace Excerpt

/-! ## Parts of members -/

/-- Balanced code without semicolons outside of brackets. -/
abbrev Expression := { code : List Code // Balanced false code }

abbrev BlockCode := { code : List Code // Balanced true code }

abbrev Name := { x : Code // x.IsName }

/-- What stands in front of a header: attribute sections, by the code between their brackets. -/
abbrev Sections := List BlockCode

/-- The attribute sections with their brackets. -/
def Sections.code (sections : Sections) : List Code :=
  sections.flatMap fun s => .squareOpen :: (s.val ++ [.squareClose])

abbrev Modifiers := { words : List Code // ∀ w ∈ words, w.IsPlain }

/-- A type and the name that follows it. -/
structure TypedName where
  type : { code : List Code // IsType code }
  name : Name

/-- What follows a header: a block, an expression behind an arrow or an equals sign, or a semicolon. -/
inductive Ending where
  | block (inner : BlockCode)
  | arrow (e : Expression)
  | assign (e : Expression)
  | semicolon

namespace Ending

def headerEnd : Ending → HeaderEnd
  | block _ => .block
  | arrow _ => .arrow
  | assign _ => .assign
  | semicolon => .semicolon

def code : Ending → List Code
  | block inner => .curlyOpen :: (inner.val ++ [.curlyClose])
  | arrow e => .arrow :: (e.val ++ [.semicolon])
  | assign e => .assign :: (e.val ++ [.semicolon])
  | semicolon => [.semicolon]

/-- The body of a member whose header ends at the position. -/
def body (header : Nat) : Ending → Option BodyExtent
  | block inner => BodyExtent.between? header (header + inner.val.length + 1)
  | arrow e => if e.val = [] then none else some (.expression (header + 1) (header + e.val.length))
  | _ => none

end Ending

/-! ## Members that are read whole -/

/-- The body of a method. -/
inductive MethodBody where
  | block (inner : BlockCode)
  | arrow (e : Expression)
  | semicolon

/-- A member without members of its own. Behind the accessors of a property, a value can follow. -/
inductive LeafMember where
  | method (sections : Sections) (modifiers : Modifiers) (head : TypedName) (parameters : Expression)
      (body : MethodBody)
  | constructor (sections : Sections) (modifiers : Modifiers) (name : Name) (parameters : Expression)
      (body : BlockCode)
  | property (sections : Sections) (modifiers : Modifiers) (head : TypedName) (accessors : BlockCode)
      (value : Option Expression)
  | arrowProperty (sections : Sections) (modifiers : Modifiers) (head : TypedName) (e : Expression)
  | delegate (sections : Sections) (modifiers : Modifiers) (head : TypedName) (parameters : Expression)
  | field (sections : Sections) (modifiers : Modifiers) (head : TypedName) (value : Option Expression)
  | event (sections : Sections) (modifiers : Modifiers) (head : TypedName)

/-- What follows the header of a method. -/
def MethodBody.ending : MethodBody → Ending
  | block inner => .block inner
  | arrow e => .arrow e
  | semicolon => .semicolon

namespace TypedName

/-- The type and the name. -/
def code (head : TypedName) : List Code := head.type.val ++ [head.name.val]

end TypedName

/-- The declaration with its positions counted from a token `n` tokens earlier. -/
def Declared.shift (n : Nat) (d : Declared) : Declared :=
  ⟨d.kind, d.name, n + d.first, n + d.last, d.body.map (·.shift n)⟩

namespace LeafMember

def sections : LeafMember → Sections
  | method s .. | constructor s .. | property s .. | arrowProperty s .. | delegate s .. | field s ..
  | event s .. => s

/-- The header of the member by its parts. -/
def header : LeafMember → HeaderSpelling
  | method _ m head parameters _ => ⟨m.val ++ head.code, none, [], some parameters.val⟩
  | constructor _ m name parameters _ => ⟨m.val ++ [name.val], none, [], some parameters.val⟩
  | property _ m head _ _ | arrowProperty _ m head _ | field _ m head _ =>
    ⟨m.val ++ head.code, none, [], none⟩
  | delegate _ m head parameters =>
    ⟨m.val, some (.word "delegate"), head.code, some parameters.val⟩
  | event _ m head => ⟨m.val, some (.word "event"), head.code, none⟩

def ending : LeafMember → Ending
  | method _ _ _ _ body => body.ending
  | constructor _ _ _ _ body => .block body
  | property _ _ _ accessors _ => .block accessors
  | arrowProperty _ _ _ e => .arrow e
  | delegate .. => .semicolon
  | field _ _ _ none => .semicolon
  | field _ _ _ (some e) => .assign e
  | event .. => .semicolon

/-- The value behind the accessors of a property. -/
def valueCode : LeafMember → List Code
  | property _ _ _ _ (some e) => (Ending.assign e).code
  | _ => []

def code (m : LeafMember) : List Code :=
  m.sections.code ++ (m.header.code ++ (m.ending.code ++ m.valueCode))

/-- The kind and the name that the member declares, and whether its body counts. -/
def declares : LeafMember → Option (DeclarationKind × Text × Bool)
  | method _ _ head _ _ => some (.method, head.name.val.text, true)
  | constructor _ _ name _ _ => some (.constructor, name.val.text, true)
  | property _ _ head _ _ | arrowProperty _ _ head _ => some (.property, head.name.val.text, true)
  | delegate _ _ head _ => some (.delegate, head.name.val.text, false)
  | field .. | event .. => none

/-- What the member declares, with positions counted from its first token. -/
def declared (m : LeafMember) : Option Declared :=
  m.declares.map fun (kind, name, hasBody) =>
    ⟨kind, name, 0, m.code.length - 1,
      if hasBody then m.ending.body (m.sections.code.length + m.header.code.length) else none⟩

/-- A method is not named like what it stands in, and a constructor is named like the type in which it
stands. -/
def IsNamed (enclosing : Option Enclosing) : LeafMember → Prop
  | method _ _ head _ _ => ∀ e ∈ enclosing, e.name ≠ head.name.val.text
  | constructor _ _ name _ _ => ∃ e ∈ enclosing, e.kind = .type ∧ e.name = name.val.text
  | _ => True

end LeafMember

/-! ## Namespaces and types -/

/-- Plain words with dots between them. -/
structure DottedName where
  first : Code
  more : List Code
  plain : ∀ x ∈ first :: more, x.IsPlain

def DottedName.code (q : DottedName) : List Code := q.first :: q.more.flatMap fun x => [.dot, x]

/-- The words that tell the types with members of their own. -/
inductive TypeWord where
  | «class»
  | struct
  | interface

def TypeWord.code : TypeWord → Code
  | «class» => .word "class"
  | struct => .word "struct"
  | interface => .word "interface"

/-- What stands in front of the block of a namespace or type. -/
inductive BlockHeader where
  | «namespace» (sections : Sections) (name : DottedName)
  | type (sections : Sections) (modifiers : Modifiers) (word : TypeWord) (name : Name)

namespace BlockHeader

def sections : BlockHeader → Sections
  | «namespace» s _ | type s .. => s

/-- The header by its parts. -/
def header : BlockHeader → HeaderSpelling
  | «namespace» _ name => ⟨[], some (.word "namespace"), name.code, none⟩
  | type _ m word name => ⟨m.val, some word.code, [name.val], none⟩

/-- All that stands in front of the block. -/
def code (b : BlockHeader) : List Code := b.sections.code ++ b.header.code

def kind : BlockHeader → DeclarationKind
  | «namespace» .. => .namespace
  | type .. => .type

def name : BlockHeader → Text
  | «namespace» _ name => name.code.flatMap Code.text
  | type _ _ _ name => name.val.text

/-- What the members of the block stand in. -/
def enclosing (b : BlockHeader) : Enclosing := ⟨b.kind, b.name⟩

end BlockHeader

/-! ## Forests -/

/-- Members one behind the other, and for a namespace or type those in it. -/
inductive Forest where
  | nil
  | leaf (m : LeafMember) (rest : Forest)
  | block (b : BlockHeader) (members rest : Forest)

namespace Forest

def code : Forest → List Code
  | nil => []
  | leaf m rest => m.code ++ rest.code
  | block b members rest => b.code ++ .curlyOpen :: (members.code ++ .curlyClose :: rest.code)

/-- Each method and constructor is named as it must be in what it stands in. -/
def IsNamed (enclosing : Option Enclosing) : Forest → Prop
  | nil => True
  | leaf m rest => m.IsNamed enclosing ∧ rest.IsNamed enclosing
  | block b members rest => members.IsNamed (some b.enclosing) ∧ rest.IsNamed enclosing

def size : Forest → Nat
  | nil => 0
  | leaf m rest => (if m.declared.isSome then 1 else 0) + rest.size
  | block _ members rest => 1 + members.size + rest.size

/-- What a block declares whose first token is at the position and whose members take `n` tokens. Only a
type has a body. -/
def blockDeclared (b : BlockHeader) (pos n : Nat) : Declared :=
  let header := pos + b.code.length
  let closing := header + 1 + n
  ⟨b.kind, b.name, pos, closing,
    if b.kind = .type then BodyExtent.between? header closing else none⟩

/-- The declarations of a forest whose first token is at the position, in the order of the text: a block
goes before the declarations in it. They are indexed from `index` on, and stand in that with the index
`parent`. -/
def entries (parent : Option Nat) (index pos : Nat) : Forest → List OutlineEntry
  | nil => []
  | leaf m rest =>
    match m.declared with
    | none => rest.entries parent index (pos + m.code.length)
    | some d => ⟨d.shift pos, parent⟩ :: rest.entries parent (index + 1) (pos + m.code.length)
  | block b members rest =>
    ⟨blockDeclared b pos members.code.length, parent⟩ ::
      (members.entries (some index) (index + 1) (pos + b.code.length + 1) ++
        rest.entries parent (index + 1 + members.size) (pos + b.code.length + members.code.length + 2))

end Forest

end Excerpt
