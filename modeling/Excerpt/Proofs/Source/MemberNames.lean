import Excerpt.Proofs.Source.AnyType
import Excerpt.Proofs.Source.Headings

/-!
# Excerpt — the name that brackets give to a member

The first bracket in a header that has a name before it, and not one of the words that never name a method, decides
what the member declares. Everything in front of it is silent. Where a header is silent from end to end and has such
a bracket in it, nothing is declared.

* **`Header.declaredBy`** — what a name before a bracket declares in a type.
* **`Member.ReadsAs`** — what a member of a type declares, whatever follows it: **`Member.readsAs_of_named`** and
  **`Member.readsAs_of_silent`**, with and without such a name.
* **`TypeModifiers.declares`** — what the words in front of a tuple type are taken for: **`Misleads.readsAs`**.
* **`SourceFile.HasMember`** — reading a text comes to some code as the next member of a type.
* **`SourceFile.HasMember.declarationsAt_eq`** — what is declared there; **`SourceFile.exists_hasMember_of_forest`** —
  well-formed code around it.
-/

namespace Excerpt

namespace Header

/-! ## Places of silent code -/

theorem mem_of_mem_takeWhile_append {α : Type} {f : α → Bool} {qs rest : List α} {p q : α} (hp : f p = false)
    (hq : q ∈ (qs ++ p :: rest).takeWhile f) : q ∈ qs := by
  induction qs with
  | nil =>
    rw [List.nil_append, List.takeWhile_cons_of_neg (by rw [hp]; exact Bool.false_ne_true)] at hq
    exact absurd hq List.not_mem_nil
  | cons r qs ih =>
    by_cases hr : f r = true
    · rw [List.cons_append, List.takeWhile_cons_of_pos hr] at hq
      exact List.mem_cons.mpr ((List.mem_cons.mp hq).imp_right ih)
    · rw [List.cons_append, List.takeWhile_cons_of_neg hr] at hq
      exact absurd hq List.not_mem_nil

theorem findWord?_eq_none_of_forall {header : List Code}
    (h : ∀ q ∈ placesBeforeParameters header, q.token.isOneOf memberWords = false) :
    ∀ words ⊆ memberWords, findWord? words header = none := by
  intro words hsub
  refine List.find?_eq_none.mpr fun q hq => ?_
  rw [Code.isOneOf_eq_false_of_subset hsub (h q hq)]
  exact Bool.false_ne_true

/-- Names are looked for behind silent places. -/
theorem methodName?_silent {enclosing : Option Enclosing} {qs : List Place} (h : ∀ q ∈ qs, q.IsSilent)
    (ps : List Place) : methodName? enclosing (qs ++ ps) = methodName? enclosing ps := by
  induction qs with
  | nil => rfl
  | cons q qs ih =>
    obtain ⟨hq, hqs⟩ := List.forall_mem_cons.mp h
    rw [List.cons_append, methodName?]
    cases hopens : q.opensParameters with
    | false => exact ih hqs
    | true =>
      cases hname : nameBefore? q.before with
      | none => exact ih hqs
      | some named =>
        have hreserved : reservedWords.contains named.1.text = true :=
          List.contains_iff_mem.mpr (hq.unnamed hopens named.1 named.2 hname)
        simp only [Bool.not_true, Bool.false_eq_true, if_false, hreserved, if_true]
        exact ih hqs

section Bracket

variable {front more : List Code}

/-- The places of a header up to a bracket behind silent code. -/
theorem exists_places_of_silent (hfront : Silent [] front) (more : List Code) :
    ∃ qs, places (front ++ .roundOpen :: more) =
        qs ++ ⟨front.reverse, .roundOpen, more⟩ :: topLevel 1 (.roundOpen :: front.reverse) more ∧
      ∀ q ∈ qs, q.IsSilent := by
  obtain ⟨qs, hqs, hsilent⟩ := hfront.places (.roundOpen :: more)
  refine ⟨qs, ?_, hsilent⟩
  unfold places
  rw [hqs, List.append_nil, topLevel_opening (Or.inl rfl), if_pos rfl]
  rfl

theorem findWord?_of_silent_bracket (hfront : Silent [] front) :
    ∀ words ⊆ memberWords, findWord? words (front ++ .roundOpen :: more) = none := by
  obtain ⟨qs, hplaces, hsilent⟩ := exists_places_of_silent hfront more
  refine findWord?_eq_none_of_forall fun q hq => ?_
  unfold placesBeforeParameters at hq
  rw [hplaces] at hq
  exact (hsilent q (mem_of_mem_takeWhile_append rfl hq)).undeclaring

theorem any_opensParameters_of_silent_bracket (hfront : Silent [] front) :
    (places (front ++ .roundOpen :: more)).any Place.opensParameters = true := by
  obtain ⟨qs, hplaces, -⟩ := exists_places_of_silent hfront more
  rw [hplaces, List.any_append, List.any_cons]
  exact (Bool.or_eq_true _ _).mpr (Or.inr rfl)

end Bracket

theorem places_silent {header : List Code} (h : Silent [] header) : ∀ q ∈ places header, q.IsSilent := by
  obtain ⟨qs, hqs, hsilent⟩ := h.places []
  have hplaces : places header = qs := by
    unfold places
    rw [List.append_nil] at hqs
    rw [hqs]
    exact List.append_nil qs
  rwa [hplaces]

/-! ## The name before a bracket -/

/-- What a name before a bracket declares in a type, with `before` in front of it, the nearest token first. -/
def declaredBy (type : Text) (name : Code) (before : List Code) : Option (DeclarationKind × Text) :=
  if before.head?.any namesOperator then none
  else if name.plainName = type then some (.constructor, type)
  else if (dropQualifiers before).isEmpty then none
  else some (.method, name.plainName)

theorem methodName?_of_named {front : List Code} (hfront : Silent [] front) {name : Code} {before : List Code}
    (hname : nameBefore? front.reverse = some (name, before)) (hreserved : name.text ∉ reservedWords) (type : Text)
    (more : List Code) :
    methodName? (some ⟨.type, type⟩) (places (front ++ .roundOpen :: more)) =
      (declaredBy type name before).map Prod.snd := by
  obtain ⟨qs, hplaces, hsilent⟩ := exists_places_of_silent hfront more
  have hcontains : reservedWords.contains name.text = false := by simpa using hreserved
  rw [hplaces, methodName?_silent hsilent, methodName?]
  simp only [Place.opensParameters, Code.roundOpen, Code.sign, decide_true, Bool.not_true, Bool.false_eq_true,
    if_false, hname, hcontains, Option.any_some, Bool.true_and]
  unfold declaredBy
  by_cases hoperator : before.head?.any namesOperator = true
  · rw [if_pos hoperator, if_pos hoperator]
    rfl
  · rw [if_neg hoperator, if_neg hoperator]
    by_cases htype : name.plainName = type
    · simp [htype]
    · have htype' : decide (type = name.plainName) = false := decide_eq_false fun h => htype h.symm
      rw [if_neg htype, htype', Bool.not_false, Bool.and_true]
      cases (dropQualifiers before).isEmpty <;> rfl

end Header

namespace Member

open Header (Silent Unnamed declaredBy)

/-! ## Members -/

/-- In a type with the name the code is read whole, whatever follows it, and declares what is given. -/
structure ReadsAs (type : Text) (code : List Code) (found : Option (DeclarationKind × Text)) : Prop where
  begins : ∃ t more, code = t :: more ∧ t.kind ≠ .braceClose
  whole : ∀ rest, ∃ declared n, read (some ⟨.type, type⟩) (code ++ rest) = .whole declared n ∧ code.length ≤ n ∧
    declared.map (fun d => (d.kind, d.name)) = found

/-- Nothing in a header ends it, so it does not begin with a closing brace. -/
theorem kind_ne_braceClose_of_passes {t : Code} {header : List Code} (h : Header.Passes (t :: header)) :
    t.kind ≠ .braceClose := by
  intro hkind
  have hends : Header.measure 0 (t :: (header ++ [])) = (0, .missing) := by
    simp [Header.measure, hkind, HeaderEnd.ofKind?]
  have hpasses := congrArg Prod.fst ((h []).symm.trans hends)
  exact absurd hpasses (by simp)

theorem exists_code_eq_cons (sections : Sections) {header : List Code} (hpasses : Header.Passes header)
    (hne : header ≠ []) (rest : List Code) :
    ∃ t more, sections.code ++ (header ++ rest) = t :: more ∧ t.kind ≠ .braceClose := by
  cases sections with
  | nil =>
    obtain ⟨t, header', rfl⟩ := List.exists_cons_of_ne_nil hne
    exact ⟨t, header' ++ rest, rfl, kind_ne_braceClose_of_passes hpasses⟩
  | cons s sections => exact ⟨.squareOpen, _, rfl, by decide⟩

variable (sections : Sections) {header : List Code} (ending : Ending) {type : Text}

theorem length_split_of_passes (hpasses : Header.Passes header) (hhead : header.head?.map Code.kind ≠ some .bracketOpen)
    (hne : header ≠ []) (rest : List Code) :
    split (sections.code ++ (header ++ ending.code) ++ rest) =
        ⟨sections.code.length, header, ending.headerEnd, ending.code ++ rest⟩ ∧
      (split (sections.code ++ (header ++ ending.code) ++ rest)).length =
        (sections.code ++ (header ++ ending.code)).length := by
  obtain ⟨t, tail, hcode, ht⟩ := ending.exists_code_eq_cons
  have hsplit : split (sections.code ++ (header ++ ending.code) ++ rest) =
      ⟨sections.code.length, header, ending.headerEnd, ending.code ++ rest⟩ := by
    rw [List.append_assoc, List.append_assoc, hcode, List.cons_append]
    exact split_of_passes sections hpasses hhead hne ht (tail ++ rest)
  refine ⟨hsplit, ?_⟩
  rw [hsplit, Parts.length, Parts.headerEnd]
  dsimp only
  rw [Ending.tailLength_code]
  simp only [List.length_append]
  omega

/-- **A member with a name before a bracket** declares in a type what the first such name declares. -/
theorem readsAs_of_named {front more : List Code} (hheader : header = front ++ .roundOpen :: more)
    (hpasses : Header.Passes header) (hhead : header.head?.map Code.kind ≠ some .bracketOpen)
    (hending : ending.headerEnd ≠ .assign) (hfront : Silent [] front) {name : Code} {before : List Code}
    (hname : Header.nameBefore? front.reverse = some (name, before)) (hreserved : name.text ∉ Header.reservedWords) :
    ReadsAs type (sections.code ++ (header ++ ending.code)) (declaredBy type name before) := by
  have hne : header ≠ [] := by simp [hheader]
  refine ⟨exists_code_eq_cons sections hpasses hne ending.code, fun rest => ?_⟩
  obtain ⟨hsplit, hlength⟩ := length_split_of_passes sections ending hpasses hhead hne rest
  have hread : read (some ⟨.type, type⟩) (sections.code ++ (header ++ ending.code) ++ rest) =
      (split (sections.code ++ (header ++ ending.code) ++ rest)).asMethod (some ⟨.type, type⟩) := by
    rw [read_of_findWord?_eq_none, if_neg (by rw [hsplit]; exact hending), if_pos]
    · rw [hsplit, hheader]
      exact Header.any_opensParameters_of_silent_bracket hfront
    · rw [hsplit, hheader]
      exact Header.findWord?_of_silent_bracket hfront
  have hmethod := Header.methodName?_of_named hfront hname hreserved type more
  rw [← hheader] at hmethod
  rw [hread]
  unfold Parts.asMethod
  rw [hlength, show (split (sections.code ++ (header ++ ending.code) ++ rest)).header = header by rw [hsplit], hmethod]
  refine ⟨_, _, rfl, Nat.le_refl _, ?_⟩
  unfold declaredBy
  split
  · rfl
  · split
    · simp
    · next htype =>
      split
      · rfl
      · have hother : decide (type = name.plainName) = false := decide_eq_false fun h => htype h.symm
        simp [hother]

/-- **A member with a silent header** declares nothing, unless it looks like a property. -/
theorem readsAs_of_silent (hsilent : Silent [] header) (hhead : header.head?.map Code.kind ≠ some .bracketOpen)
    (hne : header ≠ [])
    (hproperty : ending.headerEnd = .semicolon ∨ (Header.places header).any Header.Place.opensParameters = true ∨
      Header.propertyName? header = none) :
    ReadsAs type (sections.code ++ (header ++ ending.code)) none := by
  refine ⟨exists_code_eq_cons sections hsilent.passes hne ending.code, fun rest => ?_⟩
  obtain ⟨hsplit, hlength⟩ := length_split_of_passes sections ending hsilent.passes hhead hne rest
  have hplaces := Header.places_silent hsilent
  have hheader : (split (sections.code ++ (header ++ ending.code) ++ rest)).header = header := by rw [hsplit]
  have hending : (split (sections.code ++ (header ++ ending.code) ++ rest)).ending = ending.headerEnd := by rw [hsplit]
  have hmethod : Header.methodName? (some ⟨.type, type⟩) (Header.places header) = none := by
    rw [← List.append_nil (Header.places header), Header.methodName?_silent hplaces]
    rfl
  have hnone : ∀ words ⊆ memberWords,
      Header.findWord? words (split (sections.code ++ (header ++ ending.code) ++ rest)).header = none := by
    rw [hheader]
    refine Header.findWord?_eq_none_of_forall fun q hq => ?_
    exact (hplaces q ((List.takeWhile_sublist _).mem hq)).undeclaring
  have hwhole : ∃ declared n, Member.whole none (split (sections.code ++ (header ++ ending.code) ++ rest)).length =
        .whole declared n ∧ (sections.code ++ (header ++ ending.code)).length ≤ n ∧
      declared.map (fun d => (d.kind, d.name)) = none :=
    ⟨none, _, rfl, Nat.le_of_eq hlength.symm, rfl⟩
  rw [read_of_findWord?_eq_none hnone, hheader]
  split
  · exact hwhole
  · split
    · unfold Parts.asMethod
      rw [hheader, hmethod]
      exact hwhole
    · next hopens =>
      split
      · next hblock =>
        have hname : Header.propertyName? header = none := by
          rcases hproperty with hsemicolon | hany | hname
          · rw [hending, hsemicolon] at hblock
            exact absurd hblock (by decide)
          · exact absurd hany hopens
          · exact hname
        -- a value behind the accessors belongs to what looks like a property
        unfold Parts.asProperty
        dsimp only
        rw [hheader, hname]
        exact ⟨none, _, rfl, Nat.le_trans (Nat.le_of_eq hlength.symm) (Nat.le_add_right _ _), rfl⟩
      · exact hwhole

end Member

/-! ## Words in front of a type -/

/-- The words in front of the type of a member. -/
abbrev TypeModifiers := { words : List Code // ∀ w ∈ words, w.IsModifier }

namespace TypeModifiers

open Header (Silent Unnamed)

/-- The last of the words is taken for the name of what follows, if a bracket does: it is none of those that never
name a method. -/
def Misleads (m : TypeModifiers) : Prop := ∃ w ∈ m.val.getLast?, w.text ∉ Header.reservedWords

instance (m : TypeModifiers) : Decidable m.Misleads :=
  inferInstanceAs (Decidable (∃ w, w ∈ m.val.getLast? ∧ w.text ∉ Header.reservedWords))

/-- What the words declare in a type if a bracket follows: the last one is taken for the name of the type's
constructor, or for that of a method if another word stands before it. -/
def declares (type : Text) (m : TypeModifiers) : Option (DeclarationKind × Text) :=
  match m.val.reverse with
  | [] => none
  | w :: before =>
    if Header.reservedWords.contains w.text then none
    else if w.plainName = type then some (.constructor, type)
    else if before = [] then none
    else some (.method, w.plainName)

theorem declares_of_reverse {m : TypeModifiers} {w : Code} {before : List Code} (h : m.val.reverse = w :: before)
    (type : Text) :
    m.declares type =
      if w.text ∈ Header.reservedWords then none
      else if w.plainName = type then some (.constructor, type)
      else if before = [] then none
      else some (.method, w.plainName) := by
  unfold declares
  rw [h]
  simp only [List.contains_iff_mem]

theorem silent (m : TypeModifiers) (before : List Code) : Silent before m.val := by
  obtain ⟨words, hwords⟩ := m
  induction words generalizing before with
  | nil => exact .nil
  | cons w words ih =>
    obtain ⟨hw, hrest⟩ := List.forall_mem_cons.mp hwords
    exact (Silent.modifier hw).append (ih (w :: before) hrest)

theorem head?_kind_append (m : TypeModifiers) {rest : List Code}
    (hrest : rest.head?.map Code.kind ≠ some .bracketOpen) :
    (m.val ++ rest).head?.map Code.kind ≠ some .bracketOpen := by
  obtain ⟨words, hwords⟩ := m
  cases words with
  | nil => exact hrest
  | cons w words =>
    show some w.kind ≠ some .bracketOpen
    rw [(hwords w List.mem_cons_self).ident]
    decide

/-- Words that mislead end with a name. -/
theorem Misleads.exists_name {m : TypeModifiers} (h : m.Misleads) (type : Text) :
    ∃ w before, Header.nameBefore? m.val.reverse = some (w, before) ∧ w.text ∉ Header.reservedWords ∧
      Header.declaredBy type w before = m.declares type := by
  obtain ⟨w, hw, hreserved⟩ := h
  obtain ⟨front, hfront⟩ := List.getLast?_eq_some_iff.mp hw
  have hmodifier : w.IsModifier := m.property w (by rw [hfront]; exact List.mem_append_right _ List.mem_cons_self)
  have hreverse : m.val.reverse = w :: front.reverse := by rw [hfront, List.reverse_append]; rfl
  have hlast : ∀ l ∈ front.reverse.head?, l.IsModifier := by
    intro l hl
    refine m.property l ?_
    rw [hfront]
    exact List.mem_append_left _ (List.mem_reverse.mp (List.mem_of_mem_head? hl))
  have hoperator : front.reverse.head?.any Header.namesOperator = false := by
    cases hhead : front.reverse.head? with
    | none => rfl
    | some l => exact (hlast l hhead).namesOperator_eq_false
  have hqualifiers : Header.dropQualifiers front.reverse = front.reverse :=
    HeaderSpelling.dropQualifiers_of_ne_dot fun l hl => by rw [(hlast l hl).ident]; decide
  refine ⟨w, front.reverse, ?_, hreserved, ?_⟩
  · rw [hreverse]
    exact HeaderSpelling.nameBefore?_of_ident hmodifier.ident _
  · unfold Header.declaredBy
    rw [declares_of_reverse hreverse, hoperator, hqualifiers]
    simp only [Bool.false_eq_true, if_false, hreserved, List.isEmpty_iff]

/-- Behind words that do not mislead, brackets are no parameters of anything. -/
theorem unnamed_of_not_misleads {m : TypeModifiers} (h : ¬ m.Misleads) : Unnamed m.val.reverse := by
  intro name rest hname
  cases hreverse : m.val.reverse with
  | nil =>
    rw [hreverse] at hname
    exact nomatch hname
  | cons w before =>
    have hlast : m.val.getLast? = some w := by
      rw [← List.head?_reverse, hreverse]
      rfl
    have hident := (m.property w (List.mem_of_getLast? hlast)).ident
    rw [hreverse, HeaderSpelling.nameBefore?_of_ident hident] at hname
    obtain ⟨rfl, -⟩ := Prod.mk.inj (Option.some.inj hname)
    exact Decidable.byContradiction fun hreserved => h ⟨_, hlast, hreserved⟩

theorem declares_of_not_misleads {m : TypeModifiers} (h : ¬ m.Misleads) (type : Text) : m.declares type = none := by
  cases hreverse : m.val.reverse with
  | nil =>
    unfold declares
    rw [hreverse]
  | cons w before =>
    rw [declares_of_reverse hreverse]
    have hlast : m.val.getLast? = some w := by
      rw [← List.head?_reverse, hreverse]
      rfl
    exact if_pos (Decidable.byContradiction fun hreserved => h ⟨w, hlast, hreserved⟩)

theorem declares_eq_none_iff {m : TypeModifiers} {type : Text} :
    m.declares type = none ↔ ¬ m.Misleads ∨ ∃ w, m.val = [w] ∧ w.plainName ≠ type := by
  refine ⟨fun h => ?_, fun h => ?_⟩
  · by_cases hmisleads : m.Misleads
    · obtain ⟨w, hw, hreserved⟩ := hmisleads
      obtain ⟨front, hfront⟩ := List.getLast?_eq_some_iff.mp hw
      have hreverse : m.val.reverse = w :: front.reverse := by rw [hfront, List.reverse_append]; rfl
      rw [declares_of_reverse hreverse, if_neg hreserved] at h
      split at h
      · exact nomatch h
      · next hname =>
        split at h
        · next hfirst =>
          rw [List.reverse_eq_nil_iff.mp hfirst] at hfront
          exact Or.inr ⟨w, hfront, hname⟩
        · exact nomatch h
    · exact Or.inl hmisleads
  · rcases h with hmisleads | ⟨w, hw, hname⟩
    · exact declares_of_not_misleads hmisleads type
    · unfold declares
      rw [hw]
      simp [hname]

/-- **Where the words mislead**, a tuple at the start of the type behind them passes for the parameters of the last
one. -/
theorem Misleads.readsAs {m : TypeModifiers} (h : m.Misleads) (sections : Sections) {t : AnyType}
    (ht : t.beginsTuple = true) {behind : List Code} (hpasses : Header.Passes (m.val ++ (t.code ++ behind)))
    (ending : Ending) (hending : ending.headerEnd ≠ .assign) (type : Text) :
    Member.ReadsAs type (sections.code ++ (m.val ++ (t.code ++ behind) ++ ending.code)) (m.declares type) := by
  obtain ⟨more, hmore⟩ := AnyType.exists_code_of_beginsTuple ht
  obtain ⟨w, before, hnamed, hreserved, hdeclares⟩ := h.exists_name type
  have hheader : m.val ++ (t.code ++ behind) = m.val ++ .roundOpen :: (more ++ behind) := by
    rw [hmore]
    rfl
  rw [← hdeclares]
  exact Member.readsAs_of_named sections ending hheader hpasses (m.head?_kind_append (t.head?_kind_append behind))
    hending (m.silent []) hnamed hreserved

theorem declares_eq_some_iff {m : TypeModifiers} {type x : Text} {kind : DeclarationKind} :
    m.declares type = some (kind, x) ↔ ∃ w ∈ m.val.getLast?, w.text ∉ Header.reservedWords ∧ w.plainName = x ∧
      (kind = .constructor ∧ x = type ∨ kind = .method ∧ x ≠ type ∧ 2 ≤ m.val.length) := by
  rw [← List.head?_reverse, ← List.length_reverse]
  cases hreverse : m.val.reverse with
  | nil => simp [declares, hreverse]
  | cons w before =>
    rw [declares_of_reverse hreverse]
    simp only [List.head?_cons, Option.mem_def, Option.some.injEq, exists_eq_left']
    by_cases hreserved : w.text ∈ Header.reservedWords
    · simp [hreserved]
    · by_cases htype : w.plainName = type
      · simp only [hreserved, htype, if_false, if_true, Option.some.injEq, Prod.mk.injEq]
        constructor
        · rintro ⟨rfl, rfl⟩
          exact ⟨not_false, rfl, Or.inl ⟨rfl, rfl⟩⟩
        · rintro ⟨-, rfl, ⟨rfl, -⟩ | ⟨-, hne, -⟩⟩
          · exact ⟨rfl, rfl⟩
          · exact absurd rfl hne
      · cases before with
        | nil =>
          simp only [hreserved, htype, if_false, if_true, List.length_singleton]
          constructor
          · exact nofun
          · rintro ⟨-, rfl, ⟨-, heq⟩ | ⟨-, -, hlength⟩⟩
            · exact absurd heq htype
            · omega
        | cons u before =>
          simp only [hreserved, htype, if_false, reduceCtorEq, Option.some.injEq, Prod.mk.injEq, List.length_cons]
          constructor
          · rintro ⟨rfl, rfl⟩
            exact ⟨not_false, rfl, Or.inr ⟨rfl, htype, by omega⟩⟩
          · rintro ⟨-, rfl, ⟨-, heq⟩ | ⟨rfl, -, -⟩⟩
            · exact absurd heq htype
            · exact ⟨rfl, rfl⟩

end TypeModifiers

/-! ## Members of types in a text -/

namespace SourceFile

open Outline (Reaches Reading OpenBlock)

/-- Reading the text comes to the code of a member, which is the next thing in the body of a type. -/
structure HasMember (text : Text) (file : SourceFile) (r : Reading) (b : OpenBlock) (member rest : List Code) :
    Prop where
  parsed : parse? text = some file
  reached : Reaches (.start (codeOf (tokenize text))) r
  inside : r.outer.head? = some b
  type : b.kind = .type
  code : r.code = member ++ rest

/-- The declaration with the index is that of the type. -/
def IsTypeAt (file : SourceFile) (b : OpenBlock) (i : Nat) : Prop :=
  ∃ d, file.declarations[i]? = some d ∧ d.kind = .type ∧ d.name = b.name ∧ d.anchor = file.layout.anchor b.first

variable {text : Text} {file : SourceFile} {r : Reading} {b : OpenBlock} {member rest : List Code}

theorem HasMember.enclosing_eq (h : HasMember text file r b member rest) :
    r.enclosing = some ⟨.type, b.name⟩ := by
  unfold Reading.enclosing
  rw [h.inside]
  exact congrArg (fun kind => some (Enclosing.mk kind b.name)) h.type

/-- **What is declared in a member of a type** is what is read there, and the type is what contains it. -/
theorem HasMember.declarationsAt_eq (h : HasMember text file r b member rest)
    {found : Option (DeclarationKind × Text)} (hreads : Member.ReadsAs b.name member found) :
    ∃ i, file.IsTypeAt b i ∧
      (file.declarationsAt r.pos member.length).map (fun d => (d.kind, d.name, d.parent)) =
        found.toList.map fun (kind, name) => (kind, name, some i) := by
  obtain ⟨outer, houter⟩ : ∃ outer, r.outer = b :: outer := by
    obtain ⟨outer, houter⟩ := List.head?_eq_some_iff.mp h.inside
    exact ⟨outer, houter⟩
  obtain ⟨i, d, hi, hd, hkind, hname, hanchor⟩ := exists_container h.parsed h.reached houter
  obtain ⟨t, more, hmember, ht⟩ := hreads.begins
  obtain ⟨declared, n, hread, hn, hfound⟩ := hreads.whole rest
  rw [← h.enclosing_eq, ← h.code] at hread
  have hlength : 0 < member.length := by simp [hmember]
  have hcode : r.code = t :: (more ++ rest) := by rw [h.code, hmember]; rfl
  refine ⟨i, ⟨d, hd, hkind.trans h.type, hname, hanchor⟩, ?_⟩
  rw [declarationsAt_of_read h.parsed h.reached hcode ht hread hlength hn, hi, ← hfound]
  cases declared <;> rfl

/-- **Well-formed code around a type comes to its members:** members before the type, and members before the one in
it. -/
theorem exists_hasMember_of_forest (hparse : parse? text = some file) {r₀ : Reading}
    (hreach : Reaches (.start (codeOf (tokenize text))) r₀) {front members : Forest} {type : BlockHeader}
    (hcode : r₀.code = front.code ++ (type.code ++ .curlyOpen :: (members.code ++ (member ++ rest))))
    (hkind : type.kind = .type) (hfront : front.IsNamed r₀.enclosing) (hmembers : members.IsNamed (some type.enclosing))
    (hbounds : Forest.Bounds (member ++ rest)) :
    ∃ r b, HasMember text file r b member rest ∧ b.name = type.name ∧ b.first = r₀.pos + front.code.length ∧
      r.pos = r₀.pos + front.code.length + type.code.length + 1 + members.code.length := by
  have hbefore := Outline.reaches_forest front hcode hfront (Forest.beginsMember_block type _).bounds
  have hopened := (hreach.trans hbefore).trans (Outline.reaches_opened rfl)
  have hinside := hopened.trans (Outline.reaches_forest members rfl hmembers hbounds)
  exact ⟨_, _, ⟨hparse, hinside, rfl, hkind, rfl⟩, rfl, rfl, rfl⟩

/-- The first member of a type that the text begins with. -/
theorem exists_hasMember_of_type (hparse : parse? text = some file) (type : BlockHeader) (hkind : type.kind = .type)
    (member rest : List Code) (hcode : codeOf (tokenize text) = type.code ++ .curlyOpen :: (member ++ rest))
    (hbounds : Forest.Bounds (member ++ rest)) :
    ∃ r b, HasMember text file r b member rest ∧ b.name = type.name := by
  have hcode' : (Reading.start (codeOf (tokenize text))).code =
      Forest.nil.code ++ (type.code ++ .curlyOpen :: (Forest.nil.code ++ (member ++ rest))) :=
    hcode
  obtain ⟨r, b, hmember, hname, -⟩ :=
    exists_hasMember_of_forest hparse (.refl _) hcode' hkind trivial trivial hbounds
  exact ⟨r, b, hmember, hname⟩

end SourceFile

end Excerpt
