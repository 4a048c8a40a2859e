import Excerpt.Proofs.Source.SpelledMember

/-!
# Excerpt — types with tuples in them

A tuple type puts round brackets in front of the name of a member, where brackets open parameters in the eyes of the
reading. They are passed over where no name stands before them. Within type arguments and in other tuples this is so;
a tuple at the start of a type has before it what the member puts there.

* **`AnyType`** — types of words, type arguments, tuples, array ranks and marks, with the `code` of each.
* **`Header.Silent`** — code of a header in which no member and no name is found: **`AnyType.silent`**.
* **`Header.IsNeutral`** — code that type arguments are read backwards across: **`AnyType.isNeutral`**.
* **`AnyType.nameBefore?_code`** — the name that a type ends with, in the eyes of the reading.
-/

namespace Excerpt

abbrev PlainWord := { x : Code // x.IsPlain }

def Code.doubleColon : Code := .sign .operator "::"

/-- What can follow a type and make another one of it, besides array ranks. -/
inductive TypeMark where
  | nullable
  | pointer

def TypeMark.code : TypeMark → Code
  | nullable => .questionMark
  | pointer => .sign .operator "*"

/-! ## Types -/

mutual

/-- A type. The word of a qualified type or of one that begins with an alias can have type arguments of its own. -/
inductive AnyType where
  | name (x : PlainWord)
  | aliased (root x : PlainWord)
  | qualified (t : AnyType) (x : PlainWord)
  | generic (t : AnyType) (arguments : TypeArguments)
  | tuple (elements : TupleElements)
  | array (t : AnyType) (commas : Nat)
  | marked (t : AnyType) (mark : TypeMark)

/-- The types between angle brackets. -/
inductive TypeArguments where
  | one (t : AnyType)
  | more (t : AnyType) (rest : TypeArguments)

/-- The types between the brackets of a tuple, with a name behind each that has one. -/
inductive TupleElements where
  | one (t : AnyType) (name : Option PlainWord)
  | more (t : AnyType) (name : Option PlainWord) (rest : TupleElements)

end

/-- The name of a tuple's element, if it has one. -/
def elementName (name : Option PlainWord) : List Code := name.toList.map Subtype.val

mutual

def AnyType.code : AnyType → List Code
  | .name x => [x.val]
  | .aliased root x => [root.val, .doubleColon, x.val]
  | .qualified t x => t.code ++ [.dot, x.val]
  | .generic t arguments => t.code ++ .angleOpen :: (arguments.code ++ [.angleClose])
  | .tuple elements => .roundOpen :: (elements.code ++ [.roundClose])
  | .array t commas => t.code ++ .squareOpen :: (List.replicate commas .comma ++ [.squareClose])
  | .marked t mark => t.code ++ [mark.code]

def TypeArguments.code : TypeArguments → List Code
  | .one t => t.code
  | .more t rest => t.code ++ .comma :: rest.code

def TupleElements.code : TupleElements → List Code
  | .one t name => t.code ++ elementName name
  | .more t name rest => t.code ++ (elementName name ++ .comma :: rest.code)

end

namespace AnyType

/-- Whether the type is a tuple, or begins with one. -/
def beginsTuple : AnyType → Bool
  | .tuple _ => true
  | .name _ | .aliased _ _ => false
  | .qualified t _ | .generic t _ | .array t _ | .marked t _ => t.beginsTuple

/-- The word that ends a type without type arguments behind it, and what stands before the word. -/
def bareWord? : AnyType → Option (List Code × PlainWord)
  | .name x => some ([], x)
  | .aliased root x => some ([root.val, .doubleColon], x)
  | .qualified t x => some (t.code ++ [.dot], x)
  | _ => none

/-- The type without type arguments at its end. -/
def withoutArguments : AnyType → AnyType
  | .generic t _ => t
  | t => t

/-- The word that ends a type but for type arguments behind it, and what stands before the word. -/
def lastWord? (t : AnyType) : Option (List Code × PlainWord) := t.withoutArguments.bareWord?

theorem code_of_bareWord? {t : AnyType} {front : List Code} {x : PlainWord} (h : t.bareWord? = some (front, x)) :
    t.code = front ++ [x.val] := by
  cases t with
  | name y => cases h; rw [code, List.nil_append]
  | aliased root y => cases h; rw [code]; rfl
  | qualified t y => cases h; rw [code, List.append_assoc]; rfl
  | generic t arguments => exact nomatch h
  | tuple elements => exact nomatch h
  | array t commas => exact nomatch h
  | marked t mark => exact nomatch h

theorem exists_code_of_beginsTuple : {t : AnyType} → t.beginsTuple = true → ∃ more, t.code = .roundOpen :: more
  | .tuple elements, _ => ⟨elements.code ++ [.roundClose], by rw [code]⟩
  | .qualified t x, h => by
    obtain ⟨more, hmore⟩ := exists_code_of_beginsTuple (t := t) h
    exact ⟨more ++ [.dot, x.val], by rw [code, hmore]; rfl⟩
  | .generic t arguments, h => by
    obtain ⟨more, hmore⟩ := exists_code_of_beginsTuple (t := t) h
    exact ⟨more ++ .angleOpen :: (arguments.code ++ [.angleClose]), by rw [code, hmore]; rfl⟩
  | .array t commas, h => by
    obtain ⟨more, hmore⟩ := exists_code_of_beginsTuple (t := t) h
    exact ⟨more ++ .squareOpen :: (List.replicate commas .comma ++ [.squareClose]), by rw [code, hmore]; rfl⟩
  | .marked t mark, h => by
    obtain ⟨more, hmore⟩ := exists_code_of_beginsTuple (t := t) h
    exact ⟨more ++ [mark.code], by rw [code, hmore]; rfl⟩

end AnyType

/-! ## Types are balanced -/

theorem isBracket_mark (mark : TypeMark) : mark.code.kind.isBracket = false := by cases mark <;> rfl

theorem Code.IsPlain.isBracket_eq_false {x : Code} (hx : x.IsPlain) : x.kind.isBracket = false := by
  rw [hx.ident]
  rfl

theorem balanced_word {x : Code} (hx : x.IsPlain) {rest : List Code} (hrest : Balanced true rest) :
    Balanced true (x :: rest) :=
  .token x rest hx.isBracket_eq_false (fun _ => rfl) hrest

theorem balanced_elementName (name : Option PlainWord) : Balanced true (elementName name) := by
  cases name with
  | none => exact .nil
  | some x => exact balanced_word x.property .nil

mutual

theorem AnyType.balanced : (t : AnyType) → Balanced true t.code
  | .name x => by
    rw [AnyType.code]
    exact balanced_word x.property .nil
  | .aliased root x => by
    rw [AnyType.code]
    exact balanced_word root.property (.token _ _ rfl (fun _ => rfl) (balanced_word x.property .nil))
  | .qualified t x => by
    rw [AnyType.code]
    exact t.balanced.append (.token _ _ rfl (fun _ => rfl) (balanced_word x.property .nil))
  | .generic t arguments => by
    rw [AnyType.code]
    exact t.balanced.append
      (.token _ _ rfl (fun _ => rfl) (arguments.balanced.append (.singleton rfl fun _ => rfl)))
  | .tuple elements => by
    rw [AnyType.code]
    exact .group _ _ _ [] .round elements.balanced .nil
  | .array t commas => by
    rw [AnyType.code]
    exact t.balanced.append (.group _ _ _ [] .square (balanced_replicate_comma commas) .nil)
  | .marked t mark => by
    rw [AnyType.code]
    exact t.balanced.append (.singleton (isBracket_mark mark) fun _ => rfl)

theorem TypeArguments.balanced : (arguments : TypeArguments) → Balanced true arguments.code
  | .one t => by
    rw [TypeArguments.code]
    exact t.balanced
  | .more t rest => by
    rw [TypeArguments.code]
    exact t.balanced.append (.token _ _ rfl (fun _ => rfl) rest.balanced)

theorem TupleElements.balanced : (elements : TupleElements) → Balanced true elements.code
  | .one t name => by
    rw [TupleElements.code]
    exact t.balanced.append (balanced_elementName name)
  | .more t name rest => by
    rw [TupleElements.code]
    exact t.balanced.append ((balanced_elementName name).append (.token _ _ rfl (fun _ => rfl) rest.balanced))

end

/-! ## Type arguments read backwards -/

namespace Header

/-- Read backwards, the code leaves the depth within type arguments as it is. -/
def IsNeutral (p : List Code) : Prop :=
  ∀ depth s, 0 < depth → dropTypeArguments? depth (p.reverse ++ s) = dropTypeArguments? depth s

theorem isNeutral_nil : IsNeutral [] := fun _ _ _ => rfl

theorem IsNeutral.append {a b : List Code} (ha : IsNeutral a) (hb : IsNeutral b) : IsNeutral (a ++ b) := by
  intro depth s hdepth
  rw [List.reverse_append, List.append_assoc, hb depth _ hdepth, ha depth s hdepth]

theorem dropTypeArguments?_other {t : Code} (hopen : t.kind ≠ .angleOpen) (hclose : t.kind ≠ .angleClose)
    (depth : Nat) (rest : List Code) : dropTypeArguments? depth (t :: rest) = dropTypeArguments? depth rest := by
  rw [dropTypeArguments?.eq_def]
  split <;> simp_all

theorem isNeutral_token {t : Code} (hopen : t.kind ≠ .angleOpen) (hclose : t.kind ≠ .angleClose) :
    IsNeutral [t] :=
  fun depth s _ => dropTypeArguments?_other hopen hclose depth s

theorem isNeutral_ident {t : Code} (ht : t.kind = .ident) : IsNeutral [t] :=
  isNeutral_token (by rw [ht]; decide) (by rw [ht]; decide)

theorem IsNeutral.cons {t : Code} (hopen : t.kind ≠ .angleOpen) (hclose : t.kind ≠ .angleClose) {p : List Code}
    (hp : IsNeutral p) : IsNeutral (t :: p) :=
  (isNeutral_token hopen hclose).append hp

/-- Behind the type arguments that end here stands what they belong to. -/
theorem dropTypeArguments?_arguments {p : List Code} (hp : IsNeutral p) (depth : Nat) (s : List Code) :
    dropTypeArguments? depth ((.angleOpen :: (p ++ [.angleClose])).reverse ++ s) =
      if depth = 0 then some s else dropTypeArguments? depth s := by
  have hreverse : (Code.angleOpen :: (p ++ [.angleClose])).reverse ++ s =
      .angleClose :: (p.reverse ++ .angleOpen :: s) := by
    simp
  have hstep : dropTypeArguments? depth (.angleClose :: (p.reverse ++ .angleOpen :: s)) =
      dropTypeArguments? (depth + 1) (.angleOpen :: s) :=
    hp (depth + 1) _ (Nat.succ_pos depth)
  rw [hreverse, hstep]
  show (if depth + 1 ≤ 1 then some s else dropTypeArguments? (depth + 1 - 1) s) = _
  by_cases hdepth : depth = 0
  · rw [if_pos hdepth, if_pos (by omega)]
  · rw [if_neg hdepth, if_neg (by omega), Nat.add_sub_cancel]

theorem IsNeutral.arguments {p : List Code} (hp : IsNeutral p) :
    IsNeutral (.angleOpen :: (p ++ [.angleClose])) := by
  intro depth s hdepth
  rw [dropTypeArguments?_arguments hp, if_neg (Nat.ne_of_gt hdepth)]

theorem isNeutral_elementName (name : Option PlainWord) : IsNeutral (elementName name) := by
  cases name with
  | none => exact isNeutral_nil
  | some x => exact isNeutral_ident x.property.ident

theorem isNeutral_replicate_comma (n : Nat) : IsNeutral (List.replicate n .comma) := by
  induction n with
  | zero => exact isNeutral_nil
  | succ n ih => exact ih.cons (by decide) (by decide)

end Header

open Header (isNeutral_ident isNeutral_token)

mutual

theorem AnyType.isNeutral : (t : AnyType) → Header.IsNeutral t.code
  | .name x => by
    rw [AnyType.code]
    exact isNeutral_ident x.property.ident
  | .aliased root x => by
    rw [AnyType.code]
    exact (isNeutral_ident root.property.ident).append
      ((isNeutral_ident x.property.ident).cons (t := .doubleColon) (by decide) (by decide))
  | .qualified t x => by
    rw [AnyType.code]
    exact t.isNeutral.append ((isNeutral_ident x.property.ident).cons (by decide) (by decide))
  | .generic t arguments => by
    rw [AnyType.code]
    exact t.isNeutral.append arguments.isNeutral.arguments
  | .tuple elements => by
    rw [AnyType.code]
    exact (elements.isNeutral.append (isNeutral_token (by decide) (by decide))).cons (by decide) (by decide)
  | .array t commas => by
    rw [AnyType.code]
    exact t.isNeutral.append
      (((Header.isNeutral_replicate_comma commas).append (isNeutral_token (by decide) (by decide))).cons
        (by decide) (by decide))
  | .marked t mark => by
    rw [AnyType.code]
    exact t.isNeutral.append (isNeutral_token (by cases mark <;> decide) (by cases mark <;> decide))

theorem TypeArguments.isNeutral : (arguments : TypeArguments) → Header.IsNeutral arguments.code
  | .one t => by
    rw [TypeArguments.code]
    exact t.isNeutral
  | .more t rest => by
    rw [TypeArguments.code]
    exact t.isNeutral.append (rest.isNeutral.cons (by decide) (by decide))

theorem TupleElements.isNeutral : (elements : TupleElements) → Header.IsNeutral elements.code
  | .one t name => by
    rw [TupleElements.code]
    exact t.isNeutral.append (Header.isNeutral_elementName name)
  | .more t name rest => by
    rw [TupleElements.code]
    exact t.isNeutral.append
      ((Header.isNeutral_elementName name).append (rest.isNeutral.cons (by decide) (by decide)))

end

namespace AnyType

theorem nameBefore?_of_bareWord? {t : AnyType} {front : List Code} {x : PlainWord}
    (h : t.bareWord? = some (front, x)) (before : List Code) :
    Header.nameBefore? (t.code.reverse ++ before) = some (x.val, front.reverse ++ before) := by
  rw [code_of_bareWord? h, List.reverse_append, List.append_assoc]
  exact HeaderSpelling.nameBefore?_of_ident x.property.ident _

/-- A type without a word at its end ends with another token, which closes type arguments if the type has some. -/
theorem exists_last_of_bareWord?_eq_none {t : AnyType} (h : t.bareWord? = none) :
    ∃ l front, t.code = front ++ [l] ∧ l.kind ≠ .ident ∧
      (l.kind = .angleClose → ∃ t' arguments, t = .generic t' arguments) := by
  cases t with
  | name x => exact nomatch h
  | aliased root x => exact nomatch h
  | qualified t x => exact nomatch h
  | generic t arguments =>
    exact ⟨.angleClose, t.code ++ .angleOpen :: arguments.code, by rw [code]; simp, by decide,
      fun _ => ⟨t, arguments, rfl⟩⟩
  | tuple elements =>
    exact ⟨.roundClose, .roundOpen :: elements.code, by rw [code]; rfl, by decide, fun hl => absurd hl (by decide)⟩
  | array t commas =>
    exact ⟨.squareClose, t.code ++ .squareOpen :: List.replicate commas .comma, by rw [code]; simp, by decide,
      fun hl => absurd hl (by decide)⟩
  | marked t mark =>
    exact ⟨mark.code, t.code, by rw [code], by cases mark <;> decide, fun hl => absurd hl (by cases mark <;> decide)⟩

/-- Behind type arguments the name is looked for in front of them. -/
theorem nameBefore?_generic (t : AnyType) (arguments : TypeArguments) (before : List Code) :
    Header.nameBefore? ((generic t arguments).code.reverse ++ before) =
      match t.code.reverse ++ before with
      | u :: rest => if u.kind = .ident then some (u, rest) else none
      | [] => none := by
  have hcode : (generic t arguments).code.reverse ++ before =
      (.angleOpen :: (arguments.code ++ [.angleClose])).reverse ++ (t.code.reverse ++ before) := by
    rw [code, List.reverse_append, List.append_assoc]
  have hfront : (Code.angleOpen :: (arguments.code ++ [.angleClose])).reverse ++ (t.code.reverse ++ before) =
      .angleClose :: (arguments.code.reverse ++ .angleOpen :: (t.code.reverse ++ before)) := by
    simp
  have hdrop := Header.dropTypeArguments?_arguments arguments.isNeutral 0 (t.code.reverse ++ before)
  rw [if_pos rfl, hfront] at hdrop
  rw [hcode, hfront]
  unfold Header.nameBefore?
  dsimp only
  rw [if_pos (show Code.angleClose.kind = .angleClose from rfl), hdrop]
  cases t.code.reverse ++ before <;> rfl

/-- **The name that a type ends with**, in the eyes of the reading. -/
theorem nameBefore?_code (t : AnyType) (before : List Code) :
    Header.nameBefore? (t.code.reverse ++ before) =
      t.lastWord?.map fun (front, x) => (x.val, front.reverse ++ before) := by
  by_cases hgeneric : ∃ t' arguments, t = .generic t' arguments
  · obtain ⟨t', arguments, rfl⟩ := hgeneric
    have hlast : (generic t' arguments).lastWord? = t'.bareWord? := rfl
    rw [nameBefore?_generic, hlast]
    cases hword : t'.bareWord? with
    | some word =>
      obtain ⟨front, x⟩ := word
      rw [code_of_bareWord? hword, List.reverse_append, List.append_assoc]
      exact if_pos x.property.ident
    | none =>
      obtain ⟨l, front, hcode, hident, -⟩ := exists_last_of_bareWord?_eq_none hword
      rw [hcode, List.reverse_append, List.append_assoc]
      exact if_neg hident
  · have hlast : t.lastWord? = t.bareWord? := by
      cases t with
      | generic t' arguments => exact absurd ⟨t', arguments, rfl⟩ hgeneric
      | _ => rfl
    rw [hlast]
    cases hword : t.bareWord? with
    | some word => exact nameBefore?_of_bareWord? hword before
    | none =>
      obtain ⟨l, front, hcode, hident, hangle⟩ := exists_last_of_bareWord?_eq_none hword
      rw [hcode, List.reverse_append, List.append_assoc]
      unfold Header.nameBefore?
      simp only [List.reverse_singleton, List.singleton_append, if_neg fun h => hgeneric (hangle h), if_neg hident]
      rfl

end AnyType

/-! ## Code in which nothing is found -/

namespace Header

/-- Behind the tokens, the nearest first, brackets are no parameters of anything. -/
def Unnamed (before : List Code) : Prop :=
  ∀ name rest, nameBefore? before = some (name, rest) → name.text ∈ reservedWords

/-- A place at which no member is told and no name is found. -/
structure Place.IsSilent (q : Place) : Prop where
  undeclaring : q.token.isOneOf memberWords = false
  unnamed : q.opensParameters = true → Unnamed q.before

/-- Code that belongs to the header in which it stands behind the given tokens, the nearest first, and whose places
are silent there. -/
structure Silent (before p : List Code) : Prop where
  passes : Passes p
  places : ∀ rest, ∃ qs, topLevel 0 before (p ++ rest) = qs ++ topLevel 0 (p.reverse ++ before) rest ∧
    ∀ q ∈ qs, q.IsSilent

namespace Silent

variable {before : List Code}

theorem nil : Silent before [] := ⟨passes_nil, fun rest => ⟨[], rfl, by simp⟩⟩

theorem append {a b : List Code} (ha : Silent before a) (hb : Silent (a.reverse ++ before) b) :
    Silent before (a ++ b) := by
  refine ⟨ha.passes.append hb.passes, fun rest => ?_⟩
  obtain ⟨ps, hps, hpsSilent⟩ := ha.places (b ++ rest)
  obtain ⟨qs, hqs, hqsSilent⟩ := hb.places rest
  refine ⟨ps ++ qs, ?_, fun q hq => (List.mem_append.mp hq).elim (hpsSilent q) (hqsSilent q)⟩
  rw [List.append_assoc, hps, hqs, List.append_assoc, List.reverse_append, List.append_assoc]

/-- A token that is no bracket, ends no header and tells no member. -/
theorem token {t : Code} (ht : t.kind.isBracket = false) (hnone : HeaderEnd.ofKind? t.kind = none)
    (hword : t.isOneOf memberWords = false) : Silent before [t] := by
  refine ⟨passes_of_ofKind?_eq_none ht hnone, fun rest => ⟨[⟨before, t, rest⟩], ?_, ?_⟩⟩
  · exact topLevel_other (ne_round_square_of_isBracket ht) 0 before rest
  · refine List.forall_mem_singleton.mpr ⟨hword, fun hopens => ?_⟩
    exact absurd (of_decide_eq_true hopens) (ne_round_square_of_isBracket ht).1

theorem cons {t : Code} (ht : t.kind.isBracket = false) (hnone : HeaderEnd.ofKind? t.kind = none)
    (hword : t.isOneOf memberWords = false) {p : List Code} (hp : Silent (t :: before) p) :
    Silent before (t :: p) :=
  (token ht hnone hword).append hp

theorem modifier {t : Code} (ht : t.IsModifier) : Silent before [t] := by
  refine token (by rw [ht.ident]; rfl) (by rw [ht.ident]; rfl) ?_
  rw [Code.isOneOf, List.any_eq_false]
  intro word hword his
  obtain ⟨-, heq⟩ : t.kind = .ident ∧ t.text = word := by simpa [Code.isWord] using his
  exact ht.undeclaring (memberWords_subset (by rw [heq]; exact hword))

theorem plain {t : Code} (ht : t.IsPlain) : Silent before [t] := modifier ht.isModifier

/-- Code within brackets has no places of its own. -/
theorem group {t u : Code} (ht : t.kind = .parenOpen ∨ t.kind = .bracketOpen)
    (hu : u.kind = .parenClose ∨ u.kind = .bracketClose) {semicolons : Bool} {inner : List Code}
    (hinner : Balanced semicolons inner) (hunnamed : t.kind = .parenOpen → Unnamed before) :
    Silent before (t :: (inner ++ [u])) := by
  refine ⟨passes_group ht hu hinner, fun rest => ⟨[⟨before, t, inner ++ u :: rest⟩], ?_, ?_⟩⟩
  · rw [List.cons_append, List.append_assoc, List.singleton_append, topLevel_opening ht, if_pos rfl,
      topLevel_append hinner Nat.one_pos, topLevel_closing hu]
    simp
  · refine List.forall_mem_singleton.mpr ⟨?_, fun hopens => hunnamed (of_decide_eq_true hopens)⟩
    rw [Code.isOneOf, List.any_eq_false]
    intro word _ his
    obtain ⟨hident, -⟩ : t.kind = .ident ∧ t.text = word := by simpa [Code.isWord] using his
    rcases ht with h | h <;> rw [h] at hident <;> cases hident

end Silent

theorem unnamed_nil : Unnamed [] := nofun

/-- Behind a sign that is no closing angle bracket no name stands. -/
theorem unnamed_cons {t : Code} (hident : t.kind ≠ .ident) (hangle : t.kind ≠ .angleClose) (before : List Code) :
    Unnamed (t :: before) := by
  intro name rest h
  unfold nameBefore? at h
  simp only [if_neg hangle, if_neg hident] at h
  exact nomatch h

end Header

open Header (Silent Unnamed unnamed_cons)

mutual

/-- **A type is silent** where no tuple at its start takes what stands before it for its name. -/
theorem AnyType.silent : (t : AnyType) → {before : List Code} → (t.beginsTuple = true → Unnamed before) →
    Silent before t.code
  | .name x, _, _ => by
    rw [AnyType.code]
    exact .plain x.property
  | .aliased root x, _, _ => by
    rw [AnyType.code]
    exact (Silent.plain root.property).append (.cons rfl rfl (by decide +kernel) (.plain x.property))
  | .qualified t x, _, h => by
    rw [AnyType.code]
    exact (t.silent h).append (.cons rfl rfl (by decide +kernel) (.plain x.property))
  | .generic t arguments, _, h => by
    rw [AnyType.code]
    exact (t.silent h).append (.cons rfl rfl (by decide +kernel)
      ((arguments.silent (unnamed_cons (by decide) (by decide) _)).append (.token rfl rfl (by decide +kernel))))
  | .tuple elements, _, h => by
    rw [AnyType.code]
    exact .group (.inl rfl) (.inl rfl) elements.balanced fun _ => h rfl
  | .array t commas, _, h => by
    rw [AnyType.code]
    exact (t.silent h).append
      (.group (.inr rfl) (.inr rfl) (balanced_replicate_comma commas) fun h => absurd h (by decide))
  | .marked t mark, _, h => by
    rw [AnyType.code]
    exact (t.silent h).append
      (.token (isBracket_mark mark) (by cases mark <;> rfl) (by cases mark <;> decide +kernel))

theorem TypeArguments.silent : (arguments : TypeArguments) → {before : List Code} → Unnamed before →
    Silent before arguments.code
  | .one t, _, h => by
    rw [TypeArguments.code]
    exact t.silent fun _ => h
  | .more t rest, _, h => by
    rw [TypeArguments.code]
    exact (t.silent fun _ => h).append
      (.cons rfl rfl (by decide +kernel) (rest.silent (unnamed_cons (by decide) (by decide) _)))

end

namespace AnyType

theorem passes (t : AnyType) : Header.Passes t.code :=
  (t.silent fun _ => Header.unnamed_nil).passes

/-- The last token of a type is no dot, and makes no operator of what follows it. -/
theorem exists_last (t : AnyType) :
    ∃ l front, t.code = front ++ [l] ∧ l.kind ≠ .dot ∧ Header.namesOperator l = false := by
  have hplain : ∀ x : PlainWord, x.val.kind ≠ .dot ∧ Header.namesOperator x.val = false :=
    fun x => ⟨by rw [x.property.ident]; decide, x.property.namesOperator_eq_false⟩
  cases t with
  | name x => exact ⟨x.val, [], by rw [code]; rfl, hplain x⟩
  | aliased root x => exact ⟨x.val, [root.val, .doubleColon], by rw [code]; rfl, hplain x⟩
  | qualified t x => exact ⟨x.val, t.code ++ [.dot], by rw [code]; simp, hplain x⟩
  | generic t arguments =>
    exact ⟨.angleClose, t.code ++ .angleOpen :: arguments.code, by rw [code]; simp, by decide, by decide⟩
  | tuple elements => exact ⟨.roundClose, .roundOpen :: elements.code, by rw [code]; rfl, by decide, by decide⟩
  | array t commas =>
    exact ⟨.squareClose, t.code ++ .squareOpen :: List.replicate commas .comma, by rw [code]; simp, by decide,
      by decide⟩
  | marked t mark => exact ⟨mark.code, t.code, by rw [code], by cases mark <;> decide, by cases mark <;> decide⟩

/-- A type begins with a word or with a round bracket. -/
theorem head?_kind_append : (t : AnyType) → ∀ rest, (t.code ++ rest).head?.map Code.kind ≠ some .bracketOpen
  | .name x, rest => by
    rw [code, List.singleton_append]
    show some x.val.kind ≠ _
    rw [x.property.ident]
    decide
  | .aliased root x, rest => by
    rw [code, List.cons_append]
    show some root.val.kind ≠ _
    rw [root.property.ident]
    decide
  | .tuple elements, rest => by
    rw [code, List.cons_append]
    show some TokenKind.parenOpen ≠ _
    decide
  | .qualified t x, rest => by
    rw [code, List.append_assoc]
    exact t.head?_kind_append _
  | .generic t arguments, rest => by
    rw [code, List.append_assoc]
    exact t.head?_kind_append _
  | .array t commas, rest => by
    rw [code, List.append_assoc]
    exact t.head?_kind_append _
  | .marked t mark, rest => by
    rw [code, List.append_assoc]
    exact t.head?_kind_append _

end AnyType

end Excerpt
