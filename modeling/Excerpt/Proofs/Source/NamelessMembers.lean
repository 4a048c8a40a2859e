import Excerpt.Proofs.Source.TupleMembers

/-!
# Excerpt — members without a name

Fields, indexers, operators, conversions and destructors are not addressed by a name, and reading finds none in them
as long as no round bracket comes behind a word that can be a name. A tuple type brings such a bracket behind the last
word in front of it; and the parameters of a conversion stand behind the last word of its type, which names a method
in the eyes of the reading unless it is the only one.

* **`NamelessMember`** — such members, with the `code` of each.
* **`NamelessMember.misreadAs`** — what each is taken for, if it is taken for something.
* **`NamelessMember.readsAs`** — what is read where such a member stands in a type.
* **`NamelessMember.declarationsAt_namelessMember`** — what such a member of a text adds to its declarations.
-/

namespace Excerpt

/-! ## Members without a name -/

/-- What an operator does: a sign, which the tokens of a shift to the right make together, or one of two words. -/
inductive OperatorSign where
  | sign (t : Code) (ht : t.kind = .operator ∨ t.kind = .tilde ∨ t.kind = .angleOpen)
  | closing (more : Nat)
  | truth (value : Bool)

def OperatorSign.code : OperatorSign → List Code
  | sign t _ => [t]
  | closing more => List.replicate (more + 1) .angleClose
  | truth value => [if value then .word "true" else .word "false"]

/-- The word that tells a conversion. -/
inductive ConversionWord where
  | implicit
  | explicit

def ConversionWord.code : ConversionWord → Code
  | implicit => .word "implicit"
  | explicit => .word "explicit"

theorem ConversionWord.kind_code (word : ConversionWord) : word.code.kind = .ident := by cases word <;> rfl

def Code.operatorWord : Code := .word "operator"

def Code.thisWord : Code := .word "this"

def Code.destructorSign : Code := .sign .tilde "~"

/-- A field, indexer, operator, conversion or destructor. -/
inductive NamelessMember where
  | field (sections : Sections) (modifiers : TypeModifiers) (type : AnyType) (name : PlainWord)
  | indexer (sections : Sections) (modifiers : TypeModifiers) (type : AnyType) (parameters : BlockCode)
      (body : Accessors)
  | operator (sections : Sections) (modifiers : TypeModifiers) (type : AnyType) (sign : OperatorSign)
      (parameters : BlockCode) (body : MethodBody)
  | conversion (sections : Sections) (modifiers : TypeModifiers) (word : ConversionWord) (type : AnyType)
      (parameters : BlockCode) (body : MethodBody)
  | destructor (sections : Sections) (modifiers : TypeModifiers) (name : PlainWord) (body : MethodBody)

namespace Header

/-- Qualifiers come to an end before two tokens of which neither is a dot. -/
theorem dropQualifiers_ne_nil {t u : Code} (ht : t.kind ≠ .dot) (hu : u.kind ≠ .dot) (rest : List Code) :
    (front : List Code) → dropQualifiers (front ++ t :: u :: rest) ≠ []
  | [] => by
    rw [List.nil_append, HeaderSpelling.dropQualifiers_of_ne_dot (by rintro _ ⟨⟩; exact ht)]
    exact List.cons_ne_nil _ _
  | [a] => by
    rw [List.singleton_append, dropQualifiers]
    split
    · rw [HeaderSpelling.dropQualifiers_of_ne_dot (by rintro _ ⟨⟩; exact hu)]
      exact List.cons_ne_nil _ _
    · exact List.cons_ne_nil _ _
  | a :: b :: front => by
    rw [List.cons_append, List.cons_append, dropQualifiers]
    split
    · exact dropQualifiers_ne_nil ht hu rest front
    · exact List.cons_ne_nil _ _

theorem dropTypeArguments?_replicate (n depth : Nat) (s : List Code) :
    dropTypeArguments? depth (List.replicate n .angleClose ++ s) = dropTypeArguments? (depth + n) s := by
  induction n generalizing depth with
  | zero => rfl
  | succ n ih =>
    have hstep : dropTypeArguments? depth (List.replicate (n + 1) .angleClose ++ s) =
        dropTypeArguments? (depth + 1) (List.replicate n .angleClose ++ s) :=
      rfl
    rw [hstep, ih, Nat.add_right_comm, Nat.add_assoc]

/-- Type arguments that nothing opens have no name before them. -/
theorem unnamed_replicate_angleClose {p : List Code} (hp : IsNeutral p) (n : Nat) :
    Unnamed (List.replicate (n + 1) .angleClose ++ p.reverse) := by
  have hdrop : dropTypeArguments? 0 (List.replicate (n + 1) .angleClose ++ p.reverse) = none := by
    have hneutral := hp (n + 1) [] (Nat.succ_pos n)
    rw [List.append_nil] at hneutral
    rw [dropTypeArguments?_replicate, Nat.zero_add, hneutral]
    rfl
  intro name rest hname
  unfold nameBefore? at hname
  rw [List.replicate_succ, List.cons_append] at hname hdrop
  dsimp only at hname
  rw [if_pos (show Code.angleClose.kind = .angleClose from rfl), hdrop] at hname
  exact nomatch hname

end Header

theorem TypeModifiers.isNeutral (m : TypeModifiers) : Header.IsNeutral m.val := by
  obtain ⟨words, hwords⟩ := m
  induction words with
  | nil => exact Header.isNeutral_nil
  | cons w words ih =>
    obtain ⟨hw, hrest⟩ := List.forall_mem_cons.mp hwords
    exact (Header.isNeutral_ident hw.ident).append (ih hrest)

/-- Between the last word of a type and the words before it stands a sign. -/
theorem AnyType.exists_last_of_bareWord? {t : AnyType} {front : List Code} {x : PlainWord}
    (h : t.bareWord? = some (front, x)) (hfront : front ≠ []) :
    ∃ l front', front = front' ++ [l] ∧ Header.namesOperator l = false := by
  cases t with
  | name y => cases h; exact absurd rfl hfront
  | aliased root y => cases h; exact ⟨.doubleColon, [root.val], rfl, by decide⟩
  | qualified t y => cases h; exact ⟨.dot, t.code, rfl, by decide⟩
  | generic t arguments => exact nomatch h
  | tuple elements => exact nomatch h
  | array t commas => exact nomatch h
  | marked t mark => exact nomatch h

namespace NamelessMember

open Header (Silent Unnamed declaredBy)

def sections : NamelessMember → Sections
  | field s .. | indexer s .. | operator s .. | conversion s .. | destructor s .. => s

def modifiers : NamelessMember → TypeModifiers
  | field _ m .. | indexer _ m .. | operator _ m .. | conversion _ m .. | destructor _ m .. => m

/-- What stands behind the modifiers, up to the parameters in round brackets. -/
def names : NamelessMember → List Code
  | field _ _ t x => t.code ++ [x.val]
  | indexer _ _ t p _ => t.code ++ .thisWord :: .squareOpen :: (p.val ++ [.squareClose])
  | operator _ _ t sign _ _ => t.code ++ .operatorWord :: sign.code
  | conversion _ _ word t _ _ => word.code :: .operatorWord :: t.code
  | destructor _ _ x _ => [.destructorSign, x.val]

/-- The parameters in round brackets. -/
def parametersCode : NamelessMember → List Code
  | field .. | indexer .. => []
  | operator _ _ _ _ p _ | conversion _ _ _ _ p _ => .roundOpen :: (p.val ++ [.roundClose])
  | destructor .. => [.roundOpen, .roundClose]

def ending : NamelessMember → Ending
  | field .. => .semicolon
  | indexer _ _ _ _ body => body.ending
  | operator _ _ _ _ _ body | conversion _ _ _ _ _ body | destructor _ _ _ body => body.ending

def header (m : NamelessMember) : List Code := m.modifiers.val ++ (m.names ++ m.parametersCode)

def code (m : NamelessMember) : List Code := m.sections.code ++ (m.header ++ m.ending.code)

/-- What a name of a member in a type makes of the member. -/
def named (type name : Text) : DeclarationKind × Text :=
  if name = type then (.constructor, type) else (.method, name)

/-- What the member is taken for in a type with the name. A tuple at the start of its type passes for the parameters
of what stands in front of it: of the last modifier, or of the word that makes an operator of a conversion. The last
word of the type of a conversion passes for its name, unless nothing stands between it and the word `operator`. -/
def misreadAs (type : Text) : NamelessMember → Option (DeclarationKind × Text)
  | field _ m t _ | indexer _ m t _ _ | operator _ m t _ _ _ => if t.beginsTuple then m.declares type else none
  | conversion _ _ _ t _ _ =>
    if t.beginsTuple then some (named type "operator".toList)
    else
      match t.lastWord? with
      | some (_ :: _, x) => some (named type x.val.plainName)
      | _ => none
  | destructor .. => none

/-- Whether nothing is declared where the member stands in a type with the name. -/
def IsPassedOver (type : Text) : NamelessMember → Prop
  | field _ m t _ | indexer _ m t _ _ | operator _ m t _ _ _ =>
    t.beginsTuple = false ∨ ¬ m.Misleads ∨ ∃ w, m.val = [w] ∧ w.plainName ≠ type
  | conversion _ _ _ t _ _ => t.beginsTuple = false ∧ ∀ front x, t.lastWord? = some (front, x) → front = []
  | destructor .. => True

theorem misreadAs_eq_none_iff (m : NamelessMember) (type : Text) : m.misreadAs type = none ↔ m.IsPassedOver type := by
  have htuple : ∀ (m : TypeModifiers) (t : AnyType), (if t.beginsTuple then m.declares type else none) = none ↔
      t.beginsTuple = false ∨ ¬ m.Misleads ∨ ∃ w, m.val = [w] ∧ w.plainName ≠ type := by
    intro m t
    cases t.beginsTuple with
    | false => simp
    | true => simp [TypeModifiers.declares_eq_none_iff]
  cases m with
  | field s m t x => exact htuple m t
  | indexer s m t p body => exact htuple m t
  | operator s m t sign p body => exact htuple m t
  | conversion s m word t p body =>
    show (if t.beginsTuple then _ else _) = none ↔ _ ∧ _
    cases t.beginsTuple with
    | true => simp
    | false =>
      cases hword : t.lastWord? with
      | none => simp
      | some word =>
        obtain ⟨front, x⟩ := word
        cases front with
        | nil => simp
        | cons u front => simp
  | destructor s m x body => exact ⟨fun _ => trivial, fun _ => rfl⟩

end NamelessMember

/-! ## What stands behind the type -/

section Behind

open Header (Silent Unnamed)

theorem OperatorSign.silent (sign : OperatorSign) (before : List Code) : Silent before sign.code := by
  cases sign with
  | sign t ht =>
    have hword : t.isOneOf memberWords = false := by
      rw [Code.isOneOf, List.any_eq_false]
      intro word _ his
      obtain ⟨hident, -⟩ : t.kind = .ident ∧ t.text = word := by simpa [Code.isWord] using his
      rcases ht with h | h | h <;> rw [h] at hident <;> cases hident
    exact .token (by rcases ht with h | h | h <;> rw [h] <;> rfl) (by rcases ht with h | h | h <;> rw [h] <;> rfl) hword
  | closing more =>
    have hclosing : ∀ n before, Silent before (List.replicate n .angleClose) := by
      intro n
      induction n with
      | zero => exact fun _ => .nil
      | succ n ih => exact fun before => .cons rfl rfl (by decide +kernel) (ih _)
    exact hclosing _ before
  | truth value => exact .modifier (by cases value <;> decide +kernel)

theorem silent_operator (sign : OperatorSign) (before : List Code) : Silent before (.operatorWord :: sign.code) :=
  .cons rfl rfl (by decide +kernel) (sign.silent _)

theorem silent_indexer (p : BlockCode) (before : List Code) :
    Silent before (.thisWord :: .squareOpen :: (p.val ++ [.squareClose])) :=
  .cons rfl rfl (by decide +kernel) (.group (.inr rfl) (.inr rfl) p.property fun h => absurd h (by decide))

theorem silent_conversion (word : ConversionWord) (before : List Code) : Silent before [word.code, .operatorWord] :=
  .cons (by cases word <;> rfl) (by cases word <;> rfl) (by cases word <;> decide +kernel)
    (.token rfl rfl (by decide +kernel))

theorem silent_destructor (x : PlainWord) (before : List Code) : Silent before [.destructorSign, x.val] :=
  .cons rfl rfl (by decide +kernel) (.plain x.property)

end Behind

/-! ## Reading -/

namespace NamelessMember

open Header (Silent Unnamed declaredBy)

variable (s : Sections) (m : TypeModifiers) {t : AnyType} {type : Text}

/-- A type is silent behind modifiers that do not mislead. -/
theorem silent_type (h : t.beginsTuple = true → ¬ m.Misleads) : Silent [] (m.val ++ t.code) := by
  refine (m.silent []).append (t.silent fun ht => ?_)
  rw [List.append_nil]
  exact TypeModifiers.unnamed_of_not_misleads (h ht)

/-- Parameters that have no name before them, behind silent code. -/
theorem readsAs_of_unnamed {front : List Code} (hfront : Silent [] front) (hunnamed : Unnamed front.reverse)
    (p : BlockCode) (ending : Ending)
    (hhead : (front ++ Code.roundOpen :: (p.val ++ [.roundClose])).head?.map Code.kind ≠ some .bracketOpen) :
    Member.ReadsAs type (s.code ++ (front ++ .roundOpen :: (p.val ++ [.roundClose]) ++ ending.code)) none := by
  have hgroup : Silent [] (front ++ .roundOpen :: (p.val ++ [.roundClose])) := by
    refine hfront.append (.group (.inl rfl) (.inl rfl) p.property fun _ => ?_)
    rw [List.append_nil]
    exact hunnamed
  exact Member.readsAs_of_silent s ending hgroup hhead (by simp)
    (Or.inr (Or.inl (Header.any_opensParameters_of_silent_bracket hfront)))

/-- A field, indexer or operator: a tuple at the start of its type passes for parameters where the modifiers mislead,
and otherwise it is what it is without misleading ones. -/
theorem readsAs_typed {behind : List Code} (hpasses : Header.Passes (m.val ++ (t.code ++ behind))) (ending : Ending)
    (hending : ending.headerEnd ≠ .assign)
    (hread : (t.beginsTuple = true → ¬ m.Misleads) →
      Member.ReadsAs type (s.code ++ (m.val ++ (t.code ++ behind) ++ ending.code)) none) :
    Member.ReadsAs type (s.code ++ (m.val ++ (t.code ++ behind) ++ ending.code))
      (if t.beginsTuple then m.declares type else none) := by
  by_cases hmisleads : m.Misleads
  · by_cases ht : t.beginsTuple = true
    · rw [if_pos ht]
      exact hmisleads.readsAs s ht hpasses ending hending type
    · rw [if_neg ht]
      exact hread fun h => absurd h ht
  · rw [TypeModifiers.declares_of_not_misleads hmisleads, ite_self]
    exact hread fun _ => hmisleads

theorem readsAs_field (t : AnyType) (x : PlainWord) :
    Member.ReadsAs type (field s m t x).code ((field s m t x).misreadAs type) := by
  have hcode : (field s m t x).code = s.code ++ (m.val ++ (t.code ++ [x.val]) ++ Ending.semicolon.code) := by
    simp [code, header, names, parametersCode, sections, modifiers, ending]
  have hbehind : ∀ before, Silent before [x.val] := fun _ => .plain x.property
  have hpasses : Header.Passes (m.val ++ (t.code ++ [x.val])) :=
    (m.silent []).passes.append (t.passes.append (hbehind []).passes)
  rw [hcode]
  refine readsAs_typed s m hpasses .semicolon HeaderEnd.noConfusion fun h => ?_
  have hheader : Silent [] (m.val ++ (t.code ++ [x.val])) := by
    rw [← List.append_assoc]
    exact (silent_type m h).append (hbehind _)
  exact Member.readsAs_of_silent s .semicolon hheader (m.head?_kind_append (t.head?_kind_append _)) (by simp)
    (Or.inl rfl)

/-- An indexer is no property, since brackets end its header. -/
theorem readsAs_indexer (t : AnyType) (p : BlockCode) (body : Accessors) :
    Member.ReadsAs type (indexer s m t p body).code ((indexer s m t p body).misreadAs type) := by
  have hcode : (indexer s m t p body).code = s.code ++ (m.val ++ (t.code ++ .thisWord :: .squareOpen ::
      (p.val ++ [.squareClose])) ++ body.ending.code) := by
    simp [code, header, names, parametersCode, sections, modifiers, ending]
  have hpasses : Header.Passes (m.val ++ (t.code ++ .thisWord :: .squareOpen :: (p.val ++ [.squareClose]))) :=
    (m.silent []).passes.append (t.passes.append (silent_indexer p []).passes)
  rw [hcode]
  refine readsAs_typed s m hpasses body.ending body.headerEnd_ne_assign fun h => ?_
  have hheader : Silent [] (m.val ++ (t.code ++ .thisWord :: .squareOpen :: (p.val ++ [.squareClose]))) := by
    rw [← List.append_assoc]
    exact (silent_type m h).append (silent_indexer p _)
  have hproperty : Header.propertyName?
      (m.val ++ (t.code ++ Code.thisWord :: .squareOpen :: (p.val ++ [.squareClose]))) = none := by
    have hreverse : (m.val ++ (t.code ++ Code.thisWord :: .squareOpen :: (p.val ++ [.squareClose]))).reverse =
        .squareClose :: (p.val.reverse ++ .squareOpen :: .thisWord :: (t.code.reverse ++ m.val.reverse)) := by
      simp
    unfold Header.propertyName?
    rw [hreverse]
    cases p.val.reverse <;> rfl
  exact Member.readsAs_of_silent s body.ending hheader (m.head?_kind_append (t.head?_kind_append _)) (by simp)
    (Or.inr (Or.inr hproperty))

/-- What stands before the parameters of an operator is no name, or it is one that the word `operator` is before. -/
theorem readsAs_operator (t : AnyType) (sign : OperatorSign) (p : BlockCode) (body : MethodBody) :
    Member.ReadsAs type (operator s m t sign p body).code ((operator s m t sign p body).misreadAs type) := by
  have hcode : (operator s m t sign p body).code = s.code ++ (m.val ++ (t.code ++ (.operatorWord :: sign.code ++
      .roundOpen :: (p.val ++ [.roundClose]))) ++ body.ending.code) := by
    simp [code, header, names, parametersCode, sections, modifiers, ending]
  have hpasses : Header.Passes (m.val ++ (t.code ++ (.operatorWord :: sign.code ++
      .roundOpen :: (p.val ++ [.roundClose])))) :=
    (m.silent []).passes.append (t.passes.append ((silent_operator sign []).passes.append
      (Header.passes_group (Or.inl rfl) (Or.inl rfl) p.property)))
  have hhead := m.head?_kind_append (t.head?_kind_append (.operatorWord :: sign.code ++
      .roundOpen :: (p.val ++ [.roundClose])))
  rw [hcode]
  refine readsAs_typed s m hpasses body.ending body.headerEnd_ne_assign fun h => ?_
  have hfront : Silent [] (m.val ++ t.code ++ .operatorWord :: sign.code) :=
    (silent_type m h).append (silent_operator sign _)
  have hheader : m.val ++ (t.code ++ (.operatorWord :: sign.code ++ .roundOpen :: (p.val ++ [.roundClose]))) =
      m.val ++ t.code ++ .operatorWord :: sign.code ++ .roundOpen :: (p.val ++ [.roundClose]) := by
    simp
  have hreverse : (m.val ++ t.code ++ .operatorWord :: sign.code).reverse =
      sign.code.reverse ++ .operatorWord :: (t.code.reverse ++ m.val.reverse) := by
    simp
  rw [hheader] at hhead hpasses ⊢
  cases sign with
  | sign u hu =>
    have hunnamed : Unnamed (m.val ++ t.code ++ .operatorWord :: [u]).reverse := by
      rw [OperatorSign.code] at hreverse
      rw [hreverse]
      exact Header.unnamed_cons (by rcases hu with h | h | h <;> rw [h] <;> decide)
        (by rcases hu with h | h | h <;> rw [h] <;> decide) _
    exact readsAs_of_unnamed s hfront hunnamed p body.ending hhead
  | closing more =>
    have hunnamed :
        Unnamed (m.val ++ t.code ++ Code.operatorWord :: List.replicate (more + 1) .angleClose).reverse := by
      have hneutral : Header.IsNeutral (m.val ++ t.code ++ [.operatorWord]) :=
        (m.isNeutral.append t.isNeutral).append (Header.isNeutral_ident rfl)
      have hangles := Header.unnamed_replicate_angleClose hneutral more
      simpa using hangles
    exact readsAs_of_unnamed s hfront hunnamed p body.ending hhead
  | truth value =>
    have hnamed : Header.nameBefore? (m.val ++ t.code ++ .operatorWord :: (OperatorSign.truth value).code).reverse =
        some (if value then .word "true" else .word "false", .operatorWord :: (t.code.reverse ++ m.val.reverse)) := by
      rw [hreverse]
      exact HeaderSpelling.nameBefore?_of_ident (by cases value <;> rfl) _
    exact Member.readsAs_of_named s body.ending rfl hpasses hhead body.headerEnd_ne_assign hfront hnamed
      (by cases value <;> decide +kernel)

theorem declaredBy_eq_some {name : Code} {before : List Code}
    (hoperator : before.head?.any Header.namesOperator = false) (hqualifiers : Header.dropQualifiers before ≠ []) :
    declaredBy type name before = some (named type name.plainName) := by
  unfold declaredBy named
  rw [hoperator, if_neg Bool.false_ne_true]
  split
  · rfl
  · rw [if_neg (by simpa using hqualifiers)]

/-- The word `operator` of a conversion passes for a name. -/
theorem declaredBy_operatorWord (word : ConversionWord) :
    declaredBy type .operatorWord (word.code :: m.val.reverse) = some (named type "operator".toList) := by
  refine declaredBy_eq_some (by cases word <;> rfl) ?_
  rw [HeaderSpelling.dropQualifiers_of_ne_dot (by rintro _ ⟨⟩; rw [word.kind_code]; decide)]
  exact List.cons_ne_nil _ _

/-- The last word of the type of a conversion passes for a name, too, if another one stands before it. -/
theorem declaredBy_lastWord (word : ConversionWord) (p : BlockCode) (body : MethodBody) (ht : ¬ t.beginsTuple = true)
    {front : List Code} {x : PlainWord} (hlast : t.lastWord? = some (front, x)) :
    declaredBy type x.val (front.reverse ++ .operatorWord :: word.code :: m.val.reverse) =
      (conversion s m word t p body).misreadAs type := by
  refine Eq.trans ?_ (if_neg ht).symm
  rw [hlast]
  cases front with
  | nil => rfl
  | cons u front =>
    refine declaredBy_eq_some ?_ (Header.dropQualifiers_ne_nil (by decide) (by rw [word.kind_code]; decide) _ _)
    obtain ⟨l, front', hl, hoperator⟩ := AnyType.exists_last_of_bareWord? hlast (List.cons_ne_nil u front)
    rw [hl, List.reverse_append]
    exact hoperator

/-- In a conversion, the word `operator` passes for a name that a tuple stands behind, and so does the last word of the
type, before the parameters, unless it is the only one. -/
theorem readsAs_conversion (word : ConversionWord) (t : AnyType) (p : BlockCode) (body : MethodBody) :
    Member.ReadsAs type (conversion s m word t p body).code ((conversion s m word t p body).misreadAs type) := by
  have hcode : (conversion s m word t p body).code = s.code ++ (m.val ++ [word.code, .operatorWord] ++ t.code ++
      .roundOpen :: (p.val ++ [.roundClose]) ++ body.ending.code) := by
    simp [code, header, names, parametersCode, sections, modifiers, ending]
  have hpasses : Header.Passes (m.val ++ [word.code, .operatorWord] ++ t.code ++
      .roundOpen :: (p.val ++ [.roundClose])) :=
    (((m.silent []).passes.append (silent_conversion word []).passes).append t.passes).append
      (Header.passes_group (Or.inl rfl) (Or.inl rfl) p.property)
  have hhead : (m.val ++ [word.code, .operatorWord] ++ t.code ++
      Code.roundOpen :: (p.val ++ [.roundClose])).head?.map Code.kind ≠ some .bracketOpen := by
    rw [List.append_assoc, List.append_assoc]
    exact m.head?_kind_append (by cases word <;> exact fun h => absurd (Option.some.inj h) (by decide))
  have hwords : Silent [] (m.val ++ [word.code, .operatorWord]) := (m.silent []).append (silent_conversion word _)
  have hreverse : (m.val ++ [word.code, .operatorWord]).reverse = .operatorWord :: word.code :: m.val.reverse := by
    simp
  rw [hcode]
  by_cases ht : t.beginsTuple = true
  · obtain ⟨more, hmore⟩ := AnyType.exists_code_of_beginsTuple ht
    have hheader : m.val ++ [word.code, .operatorWord] ++ t.code ++ .roundOpen :: (p.val ++ [.roundClose]) =
        m.val ++ [word.code, .operatorWord] ++ .roundOpen :: (more ++ .roundOpen :: (p.val ++ [.roundClose])) := by
      rw [hmore]
      simp
    have hnamed : Header.nameBefore? (m.val ++ [word.code, .operatorWord]).reverse =
        some (.operatorWord, word.code :: m.val.reverse) := by
      rw [hreverse]
      exact HeaderSpelling.nameBefore?_of_ident rfl _
    have hmisread : (conversion s m word t p body).misreadAs type =
        declaredBy type .operatorWord (word.code :: m.val.reverse) :=
      (if_pos ht).trans (declaredBy_operatorWord m word).symm
    rw [hmisread]
    exact Member.readsAs_of_named s body.ending hheader hpasses hhead body.headerEnd_ne_assign hwords hnamed
      (by decide +kernel)
  · have hfront : Silent [] (m.val ++ [word.code, .operatorWord] ++ t.code) :=
      hwords.append (t.silent fun h => absurd h ht)
    have hname : Header.nameBefore? (m.val ++ [word.code, .operatorWord] ++ t.code).reverse =
        t.lastWord?.map fun last =>
          (last.2.val, last.1.reverse ++ .operatorWord :: word.code :: m.val.reverse) := by
      rw [List.reverse_append, hreverse]
      exact t.nameBefore?_code _
    cases hlast : t.lastWord? with
    | none =>
      have hmisread : (conversion s m word t p body).misreadAs type = none := by
        refine (if_neg ht).trans ?_
        rw [hlast]
      have hunnamed : Unnamed (m.val ++ [word.code, .operatorWord] ++ t.code).reverse := by
        intro name rest h
        rw [hname, hlast] at h
        cases h
      rw [hmisread]
      exact readsAs_of_unnamed s hfront hunnamed p body.ending hhead
    | some last =>
      obtain ⟨front, x⟩ := last
      rw [hlast] at hname
      rw [← declaredBy_lastWord s m word p body ht hlast]
      exact Member.readsAs_of_named s body.ending rfl hpasses hhead body.headerEnd_ne_assign hfront hname
        x.property.unreserved

/-- The name of a destructor stands behind the sign that tells it. -/
theorem readsAs_destructor (x : PlainWord) (body : MethodBody) :
    Member.ReadsAs type (destructor s m x body).code none := by
  have hcode : (destructor s m x body).code = s.code ++ (m.val ++ [.destructorSign, x.val] ++
      [.roundOpen, .roundClose] ++ body.ending.code) := by
    simp [code, header, names, parametersCode, sections, modifiers, ending]
  have hfront : Silent [] (m.val ++ [.destructorSign, x.val]) := (m.silent []).append (silent_destructor x _)
  have hpasses : Header.Passes (m.val ++ [.destructorSign, x.val] ++ [.roundOpen, .roundClose]) :=
    hfront.passes.append (Header.passes_group (Or.inl rfl) (Or.inl rfl) (Balanced.nil : Balanced true []))
  have hhead : (m.val ++ [.destructorSign, x.val] ++ [Code.roundOpen, .roundClose]).head?.map Code.kind ≠
      some .bracketOpen := by
    rw [List.append_assoc]
    exact m.head?_kind_append fun h => absurd (Option.some.inj h) (by decide)
  have hnamed : Header.nameBefore? (m.val ++ [.destructorSign, x.val]).reverse =
      some (x.val, .destructorSign :: m.val.reverse) := by
    rw [List.reverse_append]
    exact HeaderSpelling.nameBefore?_of_ident x.property.ident _
  rw [hcode]
  exact Member.readsAs_of_named s body.ending rfl hpasses hhead body.headerEnd_ne_assign hfront hnamed
    x.property.unreserved

/-- **What is read where a member without a name stands in a type.** -/
theorem readsAs (m : NamelessMember) (type : Text) : Member.ReadsAs type m.code (m.misreadAs type) := by
  cases m with
  | field s m t x => exact readsAs_field s m t x
  | indexer s m t p body => exact readsAs_indexer s m t p body
  | operator s m t sign p body => exact readsAs_operator s m t sign p body
  | conversion s m word t p body => exact readsAs_conversion s m word t p body
  | destructor s m x body => exact readsAs_destructor s m x body

/-! ## Members without a name in a text -/

variable {text : Text} {file : SourceFile} {r : Outline.Reading} {b : Outline.OpenBlock} {m : NamelessMember}
  {rest : List Code}

/-- **What a member without a name adds to the declarations of a text.** It is nothing just where the member is passed
over, and then no dotted path addresses anything in it. Otherwise it is what the member is taken for, a method or
constructor of the type around it. -/
theorem declarationsAt_namelessMember (h : SourceFile.HasMember text file r b m.code rest) :
    ∃ i, file.IsTypeAt b i ∧
      (file.declarationsAt r.pos m.code.length).map (fun d => (d.kind, d.name, d.parent)) =
        (m.misreadAs b.name).toList.map (fun (kind, name) => (kind, name, some i)) ∧
      (file.declarationsAt r.pos m.code.length = [] ↔ m.IsPassedOver b.name) := by
  obtain ⟨i, hi, hdeclarations⟩ := h.declarationsAt_eq (m.readsAs b.name)
  refine ⟨i, hi, hdeclarations, ?_⟩
  rw [← misreadAs_eq_none_iff, ← List.map_eq_nil_iff, hdeclarations, List.map_eq_nil_iff, Option.toList_eq_nil_iff]

/-- A type with a shift operator. -/
def shiftText : Text := "class A { public static A operator >>(A a, int n) => a; }".toList

theorem isModifier_publicStatic : ∀ w ∈ [Code.word "public", .word "static"], w.IsModifier := by decide +kernel

theorem balanced_shiftParameters : Balanced true [.word "A", .word "a", .comma, .word "int", .word "n"] :=
  .of_forall (by decide +kernel)

theorem balanced_shifted : Balanced false [.word "a"] := .of_forall (by decide +kernel)

def shiftOperator : NamelessMember :=
  .operator [] ⟨_, isModifier_publicStatic⟩ (.name ⟨_, TupleMember.isPlain_owner⟩) (.closing 1)
    ⟨_, balanced_shiftParameters⟩ (.arrow ⟨_, balanced_shifted⟩)

theorem declarationsAt_namelessMember_shift :
    ∃ file r b, SourceFile.HasMember shiftText file r b shiftOperator.code [.curlyClose] ∧
      file.declarationsAt r.pos shiftOperator.code.length = [] := by
  obtain ⟨file, hparse⟩ : ∃ file, SourceFile.parse? shiftText = some file :=
    Option.isSome_iff_exists.mp (by decide +kernel)
  obtain ⟨r, b, hmember, -⟩ := SourceFile.exists_hasMember_of_type hparse TupleMember.pairOwner rfl shiftOperator.code
    [.curlyClose] (by decide +kernel) ⟨by decide +kernel, by decide +kernel⟩
  obtain ⟨i, -, -, hiff⟩ := declarationsAt_namelessMember hmember
  exact ⟨file, r, b, hmember, hiff.mpr (Or.inl rfl)⟩

/-- A type with a field whose type is a tuple and which can only be read. -/
def readonlyText : Text := "class A { private readonly (int a, int b) x; }".toList

def readonlyField : NamelessMember :=
  .field [] ⟨[.word "private", .word "readonly"], by decide +kernel⟩ TupleMember.pairType.val
    ⟨.word "x", by decide +kernel⟩

/-- The tuple type passes for the parameters of a method with the name of a modifier. -/
theorem declarationsAt_readonlyField :
    ¬ ∀ text file r b (m : NamelessMember) rest, SourceFile.HasMember text file r b m.code rest →
      file.declarationsAt r.pos m.code.length = [] := by
  intro h
  obtain ⟨file, hparse⟩ : ∃ file, SourceFile.parse? readonlyText = some file :=
    Option.isSome_iff_exists.mp (by decide +kernel)
  obtain ⟨r, b, hmember, hb⟩ := SourceFile.exists_hasMember_of_type hparse TupleMember.pairOwner rfl readonlyField.code
    [.curlyClose] (by decide +kernel) ⟨by decide +kernel, by decide +kernel⟩
  obtain ⟨i, -, hdeclarations⟩ := hmember.declarationsAt_eq (readonlyField.readsAs b.name)
  have hmisread : readonlyField.misreadAs b.name = some (.method, "readonly".toList) := by
    rw [hb]
    decide +kernel
  rw [h _ _ _ _ _ _ hmember, hmisread] at hdeclarations
  exact nomatch hdeclarations

end NamelessMember

end Excerpt
