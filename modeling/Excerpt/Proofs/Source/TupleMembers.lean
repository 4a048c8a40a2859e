import Excerpt.Proofs.Source.MemberNames

/-!
# Excerpt — methods and properties with tuple types

A tuple type is told apart from parameters by what stands in front of it, and a modifier there passes for the name of
a method. So a method with such a type is found by its name if nothing stands in front of the type, or nothing but
words of which the last one never names a method; a property with such a type is never found. Otherwise the last
modifier is declared in the place of the member, if another word stands before it or the type has its name.

* **`TupleType`**, **`TupleMember`** — tuple types and members with such types, with the `code` of each.
* **`TupleMember.readsAs`** — what is read where such a member stands in a type.
* **`TupleMember.declares_eq_iff`** — where this is the member itself.
* **`TupleMember.declarationsAt_tupleMember`** — what such a member of a text adds to its declarations.
-/

namespace Excerpt

/-! ## Members with tuple types -/

/-- A tuple, with question marks and array ranks behind it. -/
def AnyType.IsTuple : AnyType → Prop
  | .tuple _ => True
  | .array t _ | .marked t .nullable => t.IsTuple
  | _ => False

abbrev TupleType := { t : AnyType // t.IsTuple }

theorem AnyType.beginsTuple_of_isTuple : {t : AnyType} → t.IsTuple → t.beginsTuple = true
  | .tuple _, _ => rfl
  | .array t _, h => beginsTuple_of_isTuple (t := t) h
  | .marked t .nullable, h => beginsTuple_of_isTuple (t := t) h

/-- Accessors, or an expression behind an arrow. -/
inductive Accessors where
  | block (inner : BlockCode)
  | arrow (e : Expression)

def Accessors.ending : Accessors → Ending
  | block inner => .block inner
  | arrow e => .arrow e

theorem Accessors.headerEnd_ne_assign (body : Accessors) : body.ending.headerEnd ≠ .assign := by
  cases body <;> exact HeaderEnd.noConfusion

theorem MethodBody.headerEnd_ne_assign (body : MethodBody) : body.ending.headerEnd ≠ .assign := by
  cases body <;> exact HeaderEnd.noConfusion

/-- A method or property with a tuple type. -/
inductive TupleMember where
  | method (sections : Sections) (modifiers : TypeModifiers) (type : TupleType) (name : PlainWord)
      (parameters : BlockCode) (body : MethodBody)
  | property (sections : Sections) (modifiers : TypeModifiers) (type : TupleType) (name : PlainWord)
      (body : Accessors)

namespace TupleMember

open Header (Silent Unnamed)

def sections : TupleMember → Sections
  | method s .. | property s .. => s

def modifiers : TupleMember → TypeModifiers
  | method _ m .. | property _ m .. => m

def type : TupleMember → AnyType
  | method _ _ t .. | property _ _ t .. => t.val

def name : TupleMember → PlainWord
  | method _ _ _ x .. | property _ _ _ x .. => x

/-- The parameters of a method with their brackets. -/
def parametersCode : TupleMember → List Code
  | method _ _ _ _ p _ => .roundOpen :: (p.val ++ [.roundClose])
  | property .. => []

def ending : TupleMember → Ending
  | method _ _ _ _ _ body => body.ending
  | property _ _ _ _ body => body.ending

def header (m : TupleMember) : List Code := m.modifiers.val ++ (m.type.code ++ (m.name.val :: m.parametersCode))

def code (m : TupleMember) : List Code := m.sections.code ++ (m.header ++ m.ending.code)

/-- What the member is. -/
def kind : TupleMember → DeclarationKind
  | method .. => .method
  | property .. => .property

/-- What is read where the member stands in a type with the name. -/
def declares (type : Text) : TupleMember → Option (DeclarationKind × Text)
  | method _ m _ x _ _ => if m.Misleads then m.declares type else some (.method, x.val.plainName)
  | property _ m .. => m.declares type

/-- Whether the member is found by its name: it is a method, and in front of its type no modifier passes for a name,
or the last one is spelled like the method itself and not the only one. -/
def IsFound : TupleMember → Prop
  | method _ m _ x _ _ =>
    ¬ m.Misleads ∨ 2 ≤ m.val.length ∧ ∃ w ∈ m.val.getLast?, w.plainName = x.val.plainName
  | property .. => False

theorem beginsTuple_type (m : TupleMember) : m.type.beginsTuple = true := by
  cases m with
  | method s m t x p body => exact AnyType.beginsTuple_of_isTuple t.property
  | property s m t x body => exact AnyType.beginsTuple_of_isTuple t.property

theorem passes_header (m : TupleMember) : Header.Passes m.header := by
  have hparameters : Header.Passes m.parametersCode := by
    cases m with
    | method s m t x p body => exact Header.passes_group (Or.inl rfl) (Or.inl rfl) p.property
    | property s m t x body => exact Header.passes_nil
  have hname : Header.Passes [m.name.val] := Header.passes_token (by rw [m.name.property.ident]; rfl)
  exact (m.modifiers.silent []).passes.append (m.type.passes.append (hname.append hparameters))

/-- The tuple comes first behind the modifiers. -/
theorem exists_header_eq (m : TupleMember) : ∃ more, m.header = m.modifiers.val ++ .roundOpen :: more := by
  obtain ⟨more, hmore⟩ := AnyType.exists_code_of_beginsTuple m.beginsTuple_type
  exact ⟨more ++ m.name.val :: m.parametersCode, by unfold header; rw [hmore]; rfl⟩

theorem head?_kind_header (m : TupleMember) : m.header.head?.map Code.kind ≠ some .bracketOpen := by
  obtain ⟨more, hmore⟩ := m.exists_header_eq
  rw [hmore]
  exact m.modifiers.head?_kind_append fun h => absurd (Option.some.inj h) (by decide)

theorem header_ne_nil (m : TupleMember) : m.header ≠ [] := by
  obtain ⟨more, hmore⟩ := m.exists_header_eq
  simp [hmore]

/-- Nothing is found before the parameters where the modifiers do not mislead. -/
theorem silent_front (m : TupleMember) (h : ¬ m.modifiers.Misleads) :
    Silent [] (m.modifiers.val ++ (m.type.code ++ [m.name.val])) := by
  refine (m.modifiers.silent []).append ((m.type.silent fun _ => ?_).append (Silent.plain m.name.property))
  rw [List.append_nil]
  exact TypeModifiers.unnamed_of_not_misleads h

theorem headerEnd_ne_assign (m : TupleMember) : m.ending.headerEnd ≠ .assign := by
  cases m with
  | method s m t x p body => exact body.headerEnd_ne_assign
  | property s m t x body => exact body.headerEnd_ne_assign

section Found

variable (s : Sections) {m : TypeModifiers} (t : TupleType) (x : PlainWord) {type : Text}

/-- The name of a method is found behind its type where the modifiers do not mislead. -/
theorem readsAs_method (hmisleads : ¬ m.Misleads) (p : BlockCode) (body : MethodBody) (hname : x.val.plainName ≠ type) :
    Member.ReadsAs type (method s m t x p body).code (some (.method, x.val.plainName)) := by
  obtain ⟨l, front, hcode, hdot, hoperator⟩ := t.val.exists_last
  have hreverse : (m.val ++ (t.val.code ++ [x.val])).reverse = x.val :: l :: (front.reverse ++ m.val.reverse) := by
    rw [hcode]
    simp
  have hnamed : Header.nameBefore? (m.val ++ (t.val.code ++ [x.val])).reverse =
      some (x.val, l :: (front.reverse ++ m.val.reverse)) := by
    rw [hreverse]
    exact HeaderSpelling.nameBefore?_of_ident x.property.ident _
  have hheader : (method s m t x p body).header =
      m.val ++ (t.val.code ++ [x.val]) ++ .roundOpen :: (p.val ++ [.roundClose]) := by
    simp [header, modifiers, TupleMember.type, name, parametersCode]
  have hreads : Member.ReadsAs type (method s m t x p body).code
      (Header.declaredBy type x.val (l :: (front.reverse ++ m.val.reverse))) :=
    Member.readsAs_of_named s body.ending hheader (passes_header _) (head?_kind_header _)
      (headerEnd_ne_assign (method s m t x p body)) (silent_front (method s m t x p body) hmisleads) hnamed
      x.property.unreserved
  -- the type stands before the name, and makes no operator of it
  have hqualifiers : Header.dropQualifiers (l :: (front.reverse ++ m.val.reverse)) =
      l :: (front.reverse ++ m.val.reverse) :=
    HeaderSpelling.dropQualifiers_of_ne_dot (by rintro _ ⟨⟩; exact hdot)
  unfold Header.declaredBy at hreads
  rwa [hqualifiers, if_neg (by simpa using hoperator), if_neg hname] at hreads

/-- A property is none in the eyes of the reading, since the brackets of the tuple are there. -/
theorem readsAs_property (hmisleads : ¬ m.Misleads) (body : Accessors) :
    Member.ReadsAs type (property s m t x body).code none := by
  obtain ⟨more, hheader⟩ := exists_header_eq (property s m t x body)
  have hany : (Header.places (property s m t x body).header).any Header.Place.opensParameters = true := by
    rw [hheader]
    exact Header.any_opensParameters_of_silent_bracket (m.silent [])
  exact Member.readsAs_of_silent s body.ending (silent_front (property s m t x body) hmisleads)
    (head?_kind_header _) (header_ne_nil _) (Or.inr (Or.inl hany))

end Found

/-- **What is read where a member with a tuple type stands in a type.** -/
theorem readsAs (m : TupleMember) {type : Text} (hname : m.name.val.plainName ≠ type) :
    Member.ReadsAs type m.code (m.declares type) := by
  by_cases hmisleads : m.modifiers.Misleads
  · have hdeclares : m.declares type = m.modifiers.declares type := by
      cases m with
      | method s m t x p body => exact if_pos hmisleads
      | property s m t x body => rfl
    rw [hdeclares]
    -- the tuple passes for the parameters of the last modifier
    exact hmisleads.readsAs m.sections m.beginsTuple_type m.passes_header m.ending m.headerEnd_ne_assign type
  · cases m with
    | method s m t x p body =>
      have hdeclares : (method s m t x p body).declares type = some (.method, x.val.plainName) := if_neg hmisleads
      rw [hdeclares]
      exact readsAs_method s t x hmisleads p body hname
    | property s m t x body =>
      have hdeclares : (property s m t x body).declares type = none :=
        TypeModifiers.declares_of_not_misleads hmisleads type
      rw [hdeclares]
      exact readsAs_property s t x hmisleads body

/-- **A member with a tuple type is declared by its name** just where it is found. -/
theorem declares_eq_iff (m : TupleMember) {type : Text} (hname : m.name.val.plainName ≠ type) :
    m.declares type = some (m.kind, m.name.val.plainName) ↔ m.IsFound := by
  cases m with
  | method s m t x p body =>
    show (if m.Misleads then m.declares type else some (.method, x.val.plainName)) = some (.method, _) ↔
      ¬ m.Misleads ∨ 2 ≤ m.val.length ∧ ∃ w ∈ m.val.getLast?, w.plainName = x.val.plainName
    by_cases hmisleads : m.Misleads
    · rw [if_pos hmisleads, TypeModifiers.declares_eq_some_iff]
      constructor
      · rintro ⟨w, hw, -, hplain, ⟨hkind, -⟩ | ⟨-, -, hlength⟩⟩
        · exact nomatch hkind
        · exact Or.inr ⟨hlength, w, hw, hplain⟩
      · rintro (hnot | ⟨hlength, w, hw, hplain⟩)
        · exact absurd hmisleads hnot
        · obtain ⟨w', hw', hreserved⟩ := hmisleads
          obtain rfl := Option.some.inj (hw.symm.trans hw')
          exact ⟨w, hw, hreserved, hplain, Or.inr ⟨rfl, hname, hlength⟩⟩
    · rw [if_neg hmisleads]
      exact ⟨fun _ => Or.inl hmisleads, fun _ => rfl⟩
  | property s m t x body =>
    refine ⟨fun h => ?_, False.elim⟩
    obtain ⟨w, -, -, -, ⟨hkind, -⟩ | ⟨hkind, -⟩⟩ := TypeModifiers.declares_eq_some_iff.mp h
    · exact nomatch hkind
    · exact nomatch hkind

/-! ## Members with tuple types in a text -/

variable {text : Text} {file : SourceFile} {r : Outline.Reading} {b : Outline.OpenBlock} {m : TupleMember}
  {rest : List Code}

/-- **What a member with a tuple type adds to the declarations of a text.** It is the method itself, contained in the
type around it, just where no modifier in front of the tuple passes for its name, or a second one is spelled like it.
Otherwise, and for every property, it is what the last modifier is taken for: the constructor of the type if it is
named like that, a method of its name if another word stands before it, and nothing if none does. -/
theorem declarationsAt_tupleMember (h : SourceFile.HasMember text file r b m.code rest)
    (hname : m.name.val.plainName ≠ b.name) :
    ∃ i, file.IsTypeAt b i ∧
      (file.declarationsAt r.pos m.code.length).map (fun d => (d.kind, d.name, d.parent)) =
        (m.declares b.name).toList.map (fun (kind, name) => (kind, name, some i)) ∧
      ((file.declarationsAt r.pos m.code.length).map (fun d => (d.kind, d.name, d.parent)) =
        [(m.kind, m.name.val.plainName, some i)] ↔ m.IsFound) := by
  obtain ⟨i, hi, hdeclarations⟩ := h.declarationsAt_eq (m.readsAs hname)
  refine ⟨i, hi, hdeclarations, ?_⟩
  rw [hdeclarations, ← m.declares_eq_iff hname]
  cases m.declares b.name with
  | none => exact ⟨nofun, nofun⟩
  | some found => simp [Prod.ext_iff]

theorem isPlain_int : (Code.word "int").IsPlain := by decide +kernel

theorem isPlain_first : (Code.word "a").IsPlain := by decide +kernel

theorem isPlain_second : (Code.word "b").IsPlain := by decide +kernel

/-- The tuple type of two numbers. -/
def pairType : TupleType :=
  ⟨.tuple (.more (.name ⟨_, isPlain_int⟩) (some ⟨_, isPlain_first⟩)
    (.one (.name ⟨_, isPlain_int⟩) (some ⟨_, isPlain_second⟩))), trivial⟩

theorem isPlain_pairMethod : (Code.word "F").IsPlain := by decide +kernel

theorem balanced_pairParameters : Balanced true [.word "int", .word "p"] := .of_forall (by decide +kernel)

theorem balanced_pairResult : Balanced false [.word "p"] := .of_forall (by decide +kernel)

/-- A method with that type behind the words. -/
def pairMethod (m : TypeModifiers) : TupleMember :=
  .method [] m pairType ⟨_, isPlain_pairMethod⟩ ⟨_, balanced_pairParameters⟩ (.arrow ⟨_, balanced_pairResult⟩)

theorem isName_owner : (Code.word "A").IsName := by decide +kernel

theorem isPlain_owner : (Code.word "A").IsPlain := isName_owner.toIsPlain

/-- The type around it. -/
def pairOwner : BlockHeader := .type [] ⟨[], List.forall_mem_nil Code.IsPlain⟩ .class ⟨_, isName_owner⟩

/-- A method with a tuple type and nothing in front of it. -/
def barePair : Text := "class A { (int a, int b) F(int p) => p; }".toList

def bareMethod : TupleMember := pairMethod ⟨[], nofun⟩

theorem declarationsAt_tupleMember_barePair :
    ∃ file r b, SourceFile.HasMember barePair file r b bareMethod.code [.curlyClose] ∧
      bareMethod.name.val.plainName ≠ b.name ∧ bareMethod.IsFound ∧ ∃ i, file.IsTypeAt b i ∧
        (file.declarationsAt r.pos bareMethod.code.length).map (fun d => (d.kind, d.name, d.parent)) =
          [(.method, "F".toList, some i)] := by
  obtain ⟨file, hparse⟩ : ∃ file, SourceFile.parse? barePair = some file :=
    Option.isSome_iff_exists.mp (by decide +kernel)
  obtain ⟨r, b, hmember, hb⟩ := SourceFile.exists_hasMember_of_type hparse pairOwner rfl bareMethod.code
    [.curlyClose] (by decide +kernel) ⟨by decide +kernel, by decide +kernel⟩
  have hname : bareMethod.name.val.plainName ≠ b.name := by
    rw [hb]
    decide +kernel
  have hfound : bareMethod.IsFound := Or.inl (by decide +kernel)
  obtain ⟨i, hi, -, hiff⟩ := declarationsAt_tupleMember hmember hname
  exact ⟨file, r, b, hmember, hname, hfound, i, hi, hiff.mpr hfound⟩

/-- A method with a tuple type that is public. -/
def publicPair : Text := "class A { public (int a, int b) F(int p) => p; }".toList

def publicMethod : TupleMember := pairMethod ⟨[.word "public"], by decide +kernel⟩

/-- The tuple type passes for the parameters of a method without a type. -/
theorem declarationsAt_publicPair :
    ¬ ∀ text file r b (m : TupleMember) rest, SourceFile.HasMember text file r b m.code rest →
      m.name.val.plainName ≠ b.name → ∃ i, file.IsTypeAt b i ∧
        (file.declarationsAt r.pos m.code.length).map (fun d => (d.kind, d.name, d.parent)) =
          [(m.kind, m.name.val.plainName, some i)] := by
  intro h
  obtain ⟨file, hparse⟩ : ∃ file, SourceFile.parse? publicPair = some file :=
    Option.isSome_iff_exists.mp (by decide +kernel)
  obtain ⟨r, b, hmember, hb⟩ := SourceFile.exists_hasMember_of_type hparse pairOwner rfl publicMethod.code
    [.curlyClose] (by decide +kernel) ⟨by decide +kernel, by decide +kernel⟩
  have hname : publicMethod.name.val.plainName ≠ b.name := by
    rw [hb]
    decide +kernel
  obtain ⟨i, -, hdeclared⟩ := h _ _ _ _ _ _ hmember hname
  obtain ⟨i', -, hread⟩ := hmember.declarationsAt_eq (publicMethod.readsAs hname)
  have hnone : publicMethod.declares b.name = none := by
    rw [hb]
    decide +kernel
  rw [hread, hnone] at hdeclared
  exact nomatch hdeclared

end TupleMember

end Excerpt
