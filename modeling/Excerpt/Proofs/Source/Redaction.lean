import Excerpt.Proofs.Source.Reading

/-!
# Excerpt — what an outline depends on

Of the tokens of code, only identifiers are read for their text. Of all others the kind is enough, but for
two things: the name of a namespace, which is all that follows the word, and whether a method has the name of
what it stands in. No name of an excerpt tells these apart, so the outline of the code without them is as good.

* **`Code.redact`** — a token without a text that is not read.
* **`Declared.redact`** — a declaration without what no name of an excerpt tells.
* **`Member.read_redact`**, **`Outline.Reading.redact_next`**, **`Outline.Reading.redact_finish`** — reading
  a member, one step and a run.
* **`Outline.read?_redact`** — the outline is the same for all codes of the same kinds and identifiers.
-/

namespace Excerpt

/-! ## Code -/

namespace Code

/-- The token without its text, unless it is an identifier. -/
def redact (t : Code) : Code := if t.kind = .ident then t else ⟨t.kind, []⟩

@[simp] theorem kind_redact (t : Code) : t.redact.kind = t.kind := by
  unfold redact
  split <;> rfl

theorem redact_of_ident {t : Code} (h : t.kind = .ident) : t.redact = t := if_pos h

@[simp] theorem isWord_redact (word : Text) (t : Code) : t.redact.isWord word = t.isWord word := by
  by_cases h : t.kind = .ident
  · rw [redact_of_ident h]
  · simp [isWord, h]

@[simp] theorem isOneOf_redact (words : List Text) (t : Code) :
    t.redact.isOneOf words = t.isOneOf words := by
  simp [isOneOf]

variable (code : List Code)

theorem groupLength_redact (opening closing : TokenKind) (depth : Nat) :
    groupLength opening closing depth (code.map redact) = groupLength opening closing depth code := by
  induction code generalizing depth with
  | nil => rfl
  | cons t code ih => simp only [List.map_cons, groupLength, kind_redact, ih]

theorem expressionLength_redact (depth : Nat) :
    expressionLength depth (code.map redact) = expressionLength depth code := by
  induction code generalizing depth with
  | nil => rfl
  | cons t code ih => simp only [List.map_cons, expressionLength, kind_redact, ih]

end Code

/-! ## Headers -/

namespace Enclosing

/-- A namespace is enclosing under no name. -/
def redact (e : Enclosing) : Enclosing := if e.kind = .namespace then ⟨e.kind, []⟩ else e

@[simp] theorem kind_redact (e : Enclosing) : e.redact.kind = e.kind := by
  unfold redact
  split <;> rfl

theorem redact_of_kind_ne {e : Enclosing} (h : e.kind ≠ .namespace) : e.redact = e := if_neg h

end Enclosing

namespace Header

def Place.redact (place : Place) : Place :=
  ⟨place.before.map Code.redact, place.token.redact, place.behind.map Code.redact⟩

@[simp] theorem Place.token_redact (place : Place) : place.redact.token = place.token.redact := rfl

@[simp] theorem Place.opensParameters_redact (place : Place) :
    place.redact.opensParameters = place.opensParameters := by
  simp [opensParameters, redact]

theorem measure_redact (depth : Nat) (code : List Code) :
    measure depth (code.map Code.redact) = measure depth code := by
  induction code generalizing depth with
  | nil => rfl
  | cons t code ih => simp only [List.map_cons, measure, Code.kind_redact, ih]

theorem topLevel_redact (depth : Nat) (before code : List Code) :
    topLevel depth (before.map Code.redact) (code.map Code.redact) =
      (topLevel depth before code).map Place.redact := by
  induction code generalizing depth before with
  | nil => rfl
  | cons t code ih =>
    have hbehind : ∀ depth, topLevel depth (t.redact :: before.map Code.redact)
        (code.map Code.redact) = (topLevel depth (t :: before) code).map Place.redact :=
      fun depth => ih depth (t :: before)
    rw [List.map_cons]
    simp only [topLevel, Code.kind_redact, hbehind]
    split
    · split <;> rfl
    · split <;> rfl
    · rfl
    · rfl
    · split <;> rfl

theorem places_redact (header : List Code) :
    places (header.map Code.redact) = (places header).map Place.redact :=
  topLevel_redact 0 [] header

theorem findWord?_redact (words : List Text) (header : List Code) :
    findWord? words (header.map Code.redact) = (findWord? words header).map Place.redact := by
  unfold findWord? placesBeforeParameters
  rw [places_redact, List.takeWhile_map, List.find?_map]
  congr 1
  simp only [Function.comp_def, Place.opensParameters_redact]
  congr 1
  funext place
  exact Code.isOneOf_redact words place.token

theorem typeName?_redact (place : Place) : typeName? place.redact = typeName? place := by
  obtain ⟨before, token, behind⟩ := place
  cases behind with
  | nil => rfl
  | cons t rest =>
    have hskip : (if token.redact.isWord "record".toList &&
          t.redact.isOneOf ["class".toList, "struct".toList] then rest.map Code.redact
        else t.redact :: rest.map Code.redact) =
        (if token.isWord "record".toList && t.isOneOf ["class".toList, "struct".toList] then rest
          else t :: rest).map Code.redact := by
      rw [Code.isWord_redact, Code.isOneOf_redact]
      split <;> rfl
    unfold typeName?
    simp only [Place.redact, List.map_cons, hskip]
    -- what follows is read as a name only if it is an identifier, and then it is left as it is
    generalize (if token.isWord "record".toList && t.isOneOf ["class".toList, "struct".toList] then rest
      else t :: rest) = tokens
    cases tokens with
    | nil => rfl
    | cons u tokens =>
      by_cases h : u.kind = .ident
      · simp only [List.map_cons, Code.redact_of_ident h]
      · simp [h]

theorem dropTypeArguments?_redact (depth : Nat) (tokens : List Code) :
    dropTypeArguments? depth (tokens.map Code.redact) =
      (dropTypeArguments? depth tokens).map (List.map Code.redact) := by
  induction tokens generalizing depth with
  | nil => rfl
  | cons t tokens ih =>
    simp only [List.map_cons, dropTypeArguments?, Code.kind_redact, ih]
    split
    · rfl
    · split <;> rfl
    · rfl

theorem nameBefore?_redact (before : List Code) :
    nameBefore? (before.map Code.redact) =
      (nameBefore? before).map fun (t, rest) => (t, rest.map Code.redact) := by
  cases before with
  | nil => rfl
  | cons t rest =>
    have hskip : (if t.kind = .angleClose then
          dropTypeArguments? 0 (t.redact :: rest.map Code.redact)
        else some (t.redact :: rest.map Code.redact)) =
        (if t.kind = .angleClose then dropTypeArguments? 0 (t :: rest) else some (t :: rest)).map
          (List.map Code.redact) := by
      rw [← List.map_cons, dropTypeArguments?_redact]
      split <;> rfl
    unfold nameBefore?
    simp only [List.map_cons, Code.kind_redact, hskip]
    generalize (if t.kind = .angleClose then dropTypeArguments? 0 (t :: rest) else some (t :: rest)) =
      named
    rcases named with _ | _ | ⟨u, rest⟩
    · rfl
    · rfl
    · by_cases h : u.kind = .ident
      · simp [Code.redact_of_ident h, h]
      · simp [h]

theorem dropQualifiers_redact (tokens : List Code) :
    dropQualifiers (tokens.map Code.redact) = (dropQualifiers tokens).map Code.redact := by
  fun_induction dropQualifiers tokens with
  | case1 dot name rest h ih => simp only [List.map_cons, dropQualifiers, Code.kind_redact, h, if_true, ih]
  | case2 dot name rest h => simp only [List.map_cons, dropQualifiers, Code.kind_redact, h]; rfl
  | case3 tokens h =>
    unfold dropQualifiers
    split
    · next dot name rest heq =>
      obtain ⟨d, more, rfl, -, hmore⟩ := List.map_eq_cons_iff.mp heq
      obtain ⟨n, rest, rfl, -, -⟩ := List.map_eq_cons_iff.mp hmore
      exact absurd rfl (h d n rest)
    · rfl

theorem namesOperator_redact (t : Code) : namesOperator t.redact = namesOperator t := by
  simp [namesOperator]

/-- A method is named the same whatever namespace it stands in. -/
theorem methodName?_redact (enclosing : Option Enclosing) (places : List Place) :
    methodName? (enclosing.map Enclosing.redact) (places.map Place.redact) =
      methodName? enclosing places := by
  have henclosing : ∀ name : Text,
      ((enclosing.map Enclosing.redact).any fun e => e.kind = .type && e.name = name) =
        enclosing.any fun e => e.kind = .type && e.name = name := by
    intro name
    cases enclosing with
    | none => rfl
    | some e =>
      by_cases h : e.kind = .namespace
      · simp [h]
      · simp [Enclosing.redact_of_kind_ne h]
  induction places with
  | nil => rfl
  | cons place places ih =>
    rw [List.map_cons, methodName?, methodName?, Place.opensParameters_redact, ih, Place.redact,
      nameBefore?_redact]
    cases nameBefore? place.before with
    | none => rfl
    | some named =>
      obtain ⟨name, before⟩ := named
      simp only [Option.map_some, henclosing, dropQualifiers_redact, List.isEmpty_map, List.head?_map,
        Option.any_map, namesOperator_redact]

theorem propertyName?_redact (header : List Code) :
    propertyName? (header.map Code.redact) = propertyName? header := by
  unfold propertyName?
  rw [← List.map_reverse]
  rcases header.reverse with _ | ⟨t, _ | ⟨u, rest⟩⟩
  · rfl
  · rfl
  · by_cases h : t.kind = .ident
    · simp [Code.redact_of_ident h]
    · simp [h]

end Header

/-! ## Members -/

/-- No name tells a constructor from a method. -/
def DeclarationKind.redact : DeclarationKind → DeclarationKind
  | constructor => method
  | kind => kind

theorem DeclarationKind.redact_eq_iff (kind : DeclarationKind) :
    (kind.redact = .namespace ↔ kind = .namespace) ∧ (kind.redact = .type ↔ kind = .type) := by
  cases kind <;> simp [redact]

/-- The name without that of a namespace. -/
def DeclarationKind.redactName (kind : DeclarationKind) (name : Text) : Text :=
  if kind = .namespace then [] else name

def Declared.redact (d : Declared) : Declared :=
  { d with kind := d.kind.redact, name := d.kind.redactName d.name }

namespace Member

def redact : Member → Member
  | whole declared n => whole (declared.map Declared.redact) n
  | opening kind name header closable => opening kind (kind.redactName name) header closable

theorem attributesLength_redact (code : List Code) :
    attributesLength (code.map Code.redact) = attributesLength code := by
  fun_induction attributesLength code with
  | case1 => rw [List.map_nil, attributesLength]
  | case2 t rest h n ih =>
    rw [List.map_cons, attributesLength, Code.kind_redact, if_pos h]
    dsimp only
    rw [Code.groupLength_redact, ← List.map_drop, ih]
  | case3 t rest h => rw [List.map_cons, attributesLength, Code.kind_redact, if_neg h]

theorem tailLength_redact (ending : HeaderEnd) (tail : List Code) :
    tailLength ending (tail.map Code.redact) = tailLength ending tail := by
  cases ending <;>
    simp only [tailLength, Code.groupLength_redact, Code.expressionLength_redact, ← List.map_drop]

theorem any_kind_redact (tail : List Code) (n : Nat) (kind : TokenKind) :
    ((tail.map Code.redact)[n]?).any (·.kind = kind) = (tail[n]?).any (·.kind = kind) := by
  rw [List.getElem?_map, Option.any_map]
  simp only [Code.kind_redact]

theorem bodyOf_redact (ending : HeaderEnd) (header : Nat) (tail : List Code) :
    bodyOf ending header (tail.map Code.redact) = bodyOf ending header tail := by
  cases ending <;> simp only [bodyOf, tailLength_redact, any_kind_redact]

def Parts.redact (parts : Parts) : Parts :=
  ⟨parts.attributes, parts.header.map Code.redact, parts.ending, parts.tail.map Code.redact⟩

theorem split_redact (code : List Code) : split (code.map Code.redact) = (split code).redact := by
  unfold split
  simp only [attributesLength_redact, ← List.map_drop, Header.measure_redact, ← List.map_take]
  rfl

namespace Parts

variable (parts : Parts)

@[simp] theorem header_redact : parts.redact.header = parts.header.map Code.redact := rfl

@[simp] theorem ending_redact : parts.redact.ending = parts.ending := rfl

@[simp] theorem tail_redact : parts.redact.tail = parts.tail.map Code.redact := rfl

@[simp] theorem headerEnd_redact : parts.redact.headerEnd = parts.headerEnd := by
  simp [headerEnd, redact]

@[simp] theorem length_redact : parts.redact.length = parts.length := by
  simp only [length, headerEnd_redact, ending_redact, tail_redact, tailLength_redact]

theorem redact_asType (place : Header.Place) (name : Text) :
    parts.redact.asType place.redact name = parts.asType place name := by
  unfold asType
  simp only [headerEnd_redact, length_redact, ending_redact, tail_redact, Header.Place.token_redact,
    Code.isWord_redact, bodyOf_redact, any_kind_redact]

theorem redact_asMethod (enclosing : Option Enclosing) :
    (parts.redact.asMethod (enclosing.map Enclosing.redact)).redact =
      (parts.asMethod enclosing).redact := by
  unfold asMethod
  simp only [headerEnd_redact, length_redact, header_redact, ending_redact, tail_redact,
    Header.places_redact, Header.methodName?_redact, bodyOf_redact]
  -- whether it is a constructor may differ, and does not matter
  cases Header.methodName? enclosing (Header.places parts.header) with
  | none => rfl
  | some name =>
    simp only [declare, Member.redact, Option.map_some, Declared.redact]
    split <;> split <;> rfl

theorem redact_asProperty : parts.redact.asProperty = parts.asProperty := by
  unfold asProperty
  simp only [headerEnd_redact, length_redact, header_redact, ending_redact, tail_redact,
    Header.propertyName?_redact, bodyOf_redact, tailLength_redact, ← List.map_drop]
  generalize parts.tail.drop (tailLength parts.ending parts.tail) = afterBody
  congr 2
  cases parts.ending <;> cases afterBody <;>
    simp only [List.map_nil, List.map_cons, Code.kind_redact, Code.expressionLength_redact]

end Parts

/-- **A member is read the same**, but for what no name tells. -/
theorem read_redact (enclosing : Option Enclosing) (code : List Code) :
    (read (enclosing.map Enclosing.redact) (code.map Code.redact)).redact =
      (read enclosing code).redact := by
  unfold read
  simp only [split_redact, Parts.header_redact, Parts.ending_redact, Header.findWord?_redact, Header.places_redact,
    Header.methodName?_redact, Parts.length_redact, Option.isSome_map, List.any_map, Function.comp_def,
    Header.Place.opensParameters_redact]
  cases Header.findWord? ["namespace".toList] (split code).header with
  | some place =>
    simp only [Option.map_some, Parts.asNamespace, Member.redact, Parts.headerEnd_redact,
      Parts.ending_redact, DeclarationKind.redactName, if_true]
    rfl
  | none =>
    simp only [Option.map_none]
    cases Header.findWord? Header.typeWords (split code).header with
    | some place =>
      simp only [Option.map_some, Option.bind_eq_bind, Option.bind_some, Header.typeName?_redact]
      cases Header.typeName? place with
      | some name => simp only [Option.bind_some, Option.pure_def, Parts.redact_asType]
      | none =>
        simp only [Option.bind_none]
        repeat' split
        all_goals first
          | rfl
          | exact Parts.redact_asMethod _ enclosing
          | rw [Parts.redact_asProperty]
    | none =>
      simp only [Option.map_none, Option.bind_eq_bind, Option.bind_none]
      repeat' split
      all_goals first
        | rfl
        | exact Parts.redact_asMethod _ enclosing
        | rw [Parts.redact_asProperty]

end Member

/-! ## Outlines -/

namespace OutlineNode

mutual

def redact : OutlineNode → OutlineNode
  | .node d members => .node d.redact (redactAll members)

def redactAll : List OutlineNode → List OutlineNode
  | [] => []
  | n :: rest => redact n :: redactAll rest

end

theorem redactAll_eq_map (nodes : List OutlineNode) : redactAll nodes = nodes.map redact := by
  induction nodes with
  | nil => rfl
  | cons n nodes ih => rw [redactAll, List.map_cons, ih]

mutual

theorem size_redact (n : OutlineNode) : n.redact.size = n.size := by
  match n with
  | .node d members => rw [redact, size, size, sizeAll_redact members]

theorem sizeAll_redact (nodes : List OutlineNode) : sizeAll (redactAll nodes) = sizeAll nodes := by
  match nodes with
  | [] => rfl
  | n :: rest => rw [redactAll, sizeAll, sizeAll, size_redact n, sizeAll_redact rest]

end

end OutlineNode

def OutlineEntry.redact (e : OutlineEntry) : OutlineEntry := { e with declared := e.declared.redact }

namespace OutlineNode

mutual

theorem entries_redact (parent : Option Nat) (index : Nat) (n : OutlineNode) :
    entries parent index n.redact = (entries parent index n).map OutlineEntry.redact := by
  match n with
  | .node d members =>
    rw [redact, entries, entries, List.map_cons, entriesAll_redact (some index) (index + 1) members]
    rfl

theorem entriesAll_redact (parent : Option Nat) (index : Nat) (nodes : List OutlineNode) :
    entriesAll parent index (redactAll nodes) =
      (entriesAll parent index nodes).map OutlineEntry.redact := by
  match nodes with
  | [] => rfl
  | n :: rest =>
    rw [redactAll, entriesAll, entriesAll, List.map_append, size_redact,
      entries_redact parent index n, entriesAll_redact parent (index + n.size) rest]

end

end OutlineNode

namespace Outline

open OutlineNode (redactAll redactAll_eq_map)

def OpenBlock.redact (b : OpenBlock) : OpenBlock :=
  ⟨b.kind, b.kind.redactName b.name, b.first, b.header, b.closable, redactAll b.before⟩

theorem OpenBlock.enclosing_redact (b : OpenBlock) : b.redact.enclosing = b.enclosing.redact := by
  unfold enclosing Enclosing.redact redact DeclarationKind.redactName
  dsimp only
  split <;> rfl

/-- Blocks that agree are closed alike. -/
theorem OpenBlock.redactAll_close {b b' : OpenBlock} (hb : b.redact = b'.redact)
    {members members' : List OutlineNode} (hmembers : redactAll members = redactAll members')
    (closing last : Nat) :
    redactAll (b.close closing last members) = redactAll (b'.close closing last members') := by
  simp only [redact, OpenBlock.mk.injEq] at hb
  obtain ⟨hkind, hname, hfirst, hheader, -, hbefore⟩ := hb
  rw [hkind] at hname
  have hreverse : redactAll members.reverse = redactAll members'.reverse := by
    rw [redactAll_eq_map, redactAll_eq_map] at hmembers ⊢
    rw [List.map_reverse, List.map_reverse, hmembers]
  unfold close
  dsimp only
  rw [redactAll, redactAll, OutlineNode.redact, OutlineNode.redact, hreverse, hbefore]
  simp only [Declared.redact, hname, hkind, hfirst, hheader]

namespace Reading

/-- How far a source is read, as far as what is read next depends on it. -/
def redact (r : Reading) : Reading :=
  ⟨r.outer.map OpenBlock.redact, redactAll r.done, r.pos, r.code.map Code.redact⟩

variable {r r' : Reading}

theorem enclosing_redact (r : Reading) : r.redact.enclosing = r.enclosing.map Enclosing.redact := by
  unfold enclosing
  rw [redact, List.head?_map, Option.map_map, Option.map_map]
  congr 1
  funext b
  exact b.enclosing_redact

theorem redact_closeBlock (h : r.redact = r'.redact) {rest rest' : List Code}
    (hrest : rest.map Code.redact = rest'.map Code.redact) :
    (r.closeBlock rest).redact = (r'.closeBlock rest').redact := by
  simp only [redact, Reading.mk.injEq] at h
  obtain ⟨houter, hdone, hpos, -⟩ := h
  have hsemicolon : rest.head?.any (·.kind = .semicolon) = rest'.head?.any (·.kind = .semicolon) := by
    have hhead := congrArg (fun code => (code.head?).any (·.kind = .semicolon)) hrest
    simpa only [List.head?_map, Option.any_map, Code.kind_redact] using hhead
  have htail : rest.tail.map Code.redact = rest'.tail.map Code.redact := by
    rw [List.map_tail, List.map_tail, hrest]
  unfold closeBlock
  cases hcase : r.outer with
  | nil =>
    rw [hcase, List.map_nil] at houter
    rw [List.map_eq_nil_iff.mp houter.symm]
    simp only [redact, hdone, hpos, hrest]
  | cons b surrounding =>
    rw [hcase, List.map_cons] at houter
    obtain ⟨b', surrounding', hcase', hb, hsurrounding⟩ := List.map_eq_cons_iff.mp houter.symm
    have hclosed := fun closing last => OpenBlock.redactAll_close hb.symm hdone closing last
    simp only [OpenBlock.redact, OpenBlock.mk.injEq] at hb
    obtain ⟨hkind, -, -, -, hclosable, -⟩ := hb
    rw [hcase']
    simp only [hkind, hclosable, hsemicolon, hpos]
    split
    · split
      · simp only [redact, hclosed, hsurrounding, htail]
      · simp only [redact, hclosed, hsurrounding, hrest]
    · simp only [redact, houter, hcase', hdone, hrest, List.map_cons]

theorem redact_takeMember (h : r.redact = r'.redact) {m m' : Member} (hm : m.redact = m'.redact) :
    (r.takeMember m).redact = (r'.takeMember m').redact := by
  simp only [redact, Reading.mk.injEq] at h
  obtain ⟨houter, hdone, hpos, hcode⟩ := h
  have hdrop : ∀ n, (r.code.drop n).map Code.redact = (r'.code.drop n).map Code.redact := by
    intro n
    rw [List.map_drop, List.map_drop, hcode]
  cases m with
  | whole declared n =>
    cases m' with
    | opening => cases hm
    | whole declared' n' =>
      simp only [Member.redact, Member.whole.injEq] at hm
      obtain ⟨hdeclared, rfl⟩ := hm
      cases declared with
      | none =>
        rw [Option.map_none] at hdeclared
        rw [Option.map_eq_none_iff.mp hdeclared.symm]
        simp only [takeMember, redact, houter, hpos, hdrop, Option.toList_none, List.map_nil,
          List.nil_append, hdone]
      | some d =>
        obtain ⟨d', rfl, hd⟩ := Option.map_eq_some_iff.mp hdeclared.symm
        simp only [Declared.redact, Declared.mk.injEq] at hd
        obtain ⟨hkind, hname, -, hlast, hbody⟩ := hd
        simp only [takeMember, redact, houter, hpos, hdrop, Option.toList_some, List.map_cons,
          List.map_nil, List.singleton_append, redactAll, OutlineNode.redact, Declared.redact, hdone,
          hkind, hname, hlast, hbody]
  | opening kind name header closable =>
    cases m' with
    | whole => cases hm
    | opening kind' name' header' closable' =>
      simp only [Member.redact, Member.opening.injEq] at hm
      obtain ⟨rfl, hname, rfl, rfl⟩ := hm
      simp only [takeMember, redact, List.map_cons, OpenBlock.redact, houter, hdone, hpos, hdrop, hname,
        redactAll]

/-- **Readings that agree go on to agree.** -/
theorem redact_next (h : r.redact = r'.redact) : r.next.redact = r'.next.redact := by
  have henclosing : r.enclosing.map Enclosing.redact = r'.enclosing.map Enclosing.redact := by
    rw [← enclosing_redact, ← enclosing_redact, h]
  have hcode : r.code.map Code.redact = r'.code.map Code.redact := congrArg Reading.code h
  unfold next
  cases hcase : r.code with
  | nil =>
    rw [hcase, List.map_nil] at hcode
    rw [List.map_eq_nil_iff.mp hcode.symm]
    exact h
  | cons t rest =>
    rw [hcase, List.map_cons] at hcode
    obtain ⟨t', rest', hcase', ht, hrest⟩ := List.map_eq_cons_iff.mp hcode.symm
    have hkind : t'.kind = t.kind := by rw [← Code.kind_redact t', ht, Code.kind_redact]
    rw [hcase']
    simp only [hkind]
    split
    · exact redact_closeBlock h hrest.symm
    · refine redact_takeMember h ?_
      rw [← Member.read_redact, ← Member.read_redact r'.enclosing, henclosing, List.map_cons,
        List.map_cons, ht, hrest]

/-- **Readings that agree come to the same end.** Induction along the run. -/
theorem redact_finish (h : r.redact = r'.redact) : r.finish.redact = r'.finish.redact := by
  induction r using finish.induct generalizing r' with
  | case1 r hnil =>
    have hcode : r.code.map Code.redact = r'.code.map Code.redact := congrArg Reading.code h
    rw [hnil, List.map_nil] at hcode
    rw [finish_of_code_eq_nil hnil, finish_of_code_eq_nil (List.map_eq_nil_iff.mp hcode.symm), h]
  | case2 r hne ih =>
    have hne' : r'.code ≠ [] := by
      have hcode : r.code.map Code.redact = r'.code.map Code.redact := congrArg Reading.code h
      rintro hnil
      rw [hnil, List.map_nil] at hcode
      exact hne (List.map_eq_nil_iff.mp hcode)
    rw [finish_next hne, finish_next hne']
    exact ih (redact_next h)

end Reading

theorem closeAll_redact {last : Nat} {overrun : Bool} {outer outer' : List OpenBlock}
    (houter : outer.map OpenBlock.redact = outer'.map OpenBlock.redact)
    {done done' : List OutlineNode} (hdone : redactAll done = redactAll done') :
    (closeAll last overrun outer done).map redactAll =
      (closeAll last overrun outer' done').map redactAll := by
  induction outer generalizing outer' done done' with
  | nil =>
    rw [List.map_nil] at houter
    rw [List.map_eq_nil_iff.mp houter.symm, closeAll, closeAll, Option.map_some, Option.map_some]
    rw [redactAll_eq_map, redactAll_eq_map] at hdone ⊢
    rw [List.map_reverse, List.map_reverse, hdone]
  | cons b outer ih =>
    rw [List.map_cons] at houter
    obtain ⟨b', rest, rfl, hb, hrest⟩ := List.map_eq_cons_iff.mp houter.symm
    have hkind : b'.redact.kind = b.redact.kind := congrArg OpenBlock.kind hb
    change b'.kind = b.kind at hkind
    unfold closeAll
    rw [hkind]
    split
    · rfl
    · exact ih hrest.symm (OpenBlock.redactAll_close hb.symm hdone last last)

/-- **What no name of an excerpt tells apart has one outline**, as far as a name tells it. -/
theorem read?_redact {code code' : List Code} (h : code.map Code.redact = code'.map Code.redact) :
    (read? code).map redactAll = (read? code').map redactAll := by
  have hlength : code.length = code'.length := by
    rw [← List.length_map Code.redact, h, List.length_map]
  have hfinish : (Reading.start code).finish.redact = (Reading.start code').finish.redact := by
    refine Reading.redact_finish ?_
    rw [Reading.redact, Reading.redact, Reading.start, Reading.start, h]
  simp only [Reading.redact, Reading.mk.injEq] at hfinish
  obtain ⟨houter, hdone, hpos, -⟩ := hfinish
  unfold read?
  dsimp only
  rw [hlength, hpos]
  exact closeAll_redact houter hdone

/-- The entries of the outlines are the same, but for what no name tells. -/
theorem map_entriesAll_read?_redact {code code' : List Code}
    (h : code.map Code.redact = code'.map Code.redact) :
    (read? code).map (fun nodes => (OutlineNode.entriesAll none 0 nodes).map OutlineEntry.redact) =
      (read? code').map fun nodes => (OutlineNode.entriesAll none 0 nodes).map OutlineEntry.redact := by
  have hread := congrArg (Option.map (OutlineNode.entriesAll none 0)) (read?_redact h)
  simpa only [Option.map_map, Function.comp_def, OutlineNode.entriesAll_redact] using hread

end Outline

end Excerpt
