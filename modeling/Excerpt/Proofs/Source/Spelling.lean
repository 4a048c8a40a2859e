import Excerpt.Proofs.Source.Balanced

/-!
# Excerpt — how headers are spelled

The header of a member consists of names and types, with a word in between that tells what the member is,
if it is told by one, and of parameters. Nothing in the names and types looks like such a word, ends the
header or opens parameters, so that reading finds the word and the parameters where they are.

* **`Code.IsPlain`**, **`Code.IsName`** — words that mean nothing to the reading; names.
* **`IsType`** — types, of dotted names, type arguments, array ranks and question marks.
* **`Quiet`** — code that is passed over in a header: **`passes_quiet`**, **`topLevel_quiet`**.
* **`HeaderSpelling`** — a header by its parts, and what is found in it: **`findWord?_eq_none`**,
  **`findWord?_eq_some`**, **`any_opensParameters`**, **`methodName?_code`**, **`measure_code`**.
-/

namespace Excerpt

/-- The words that tell what a member is. -/
def declaringWords : List Text :=
  ["namespace", "event", "delegate", "operator"].map String.toList ++ Header.typeWords

/-- Those of them that tell a member before its parameters. -/
def memberWords : List Text := ["namespace", "event", "delegate"].map String.toList ++ Header.typeWords

theorem memberWords_subset : memberWords ⊆ declaringWords := by decide +kernel

namespace Code

/-- A word that neither tells what a member is nor stands before a bracket without naming a method. -/
structure IsPlain (t : Code) : Prop where
  ident : t.kind = .ident
  undeclaring : t.text ∉ declaringWords
  unreserved : t.text ∉ Header.reservedWords

/-- A plain word without the sign that lets a keyword be a name. -/
structure IsName (t : Code) : Prop extends IsPlain t where
  unsigned : t.text.head? ≠ some '@'

/-- A word that can stand in front of a type: one that does not tell what a member is. -/
structure IsModifier (t : Code) : Prop where
  ident : t.kind = .ident
  undeclaring : t.text ∉ declaringWords

theorem IsPlain.isModifier {t : Code} (h : t.IsPlain) : t.IsModifier := ⟨h.ident, h.undeclaring⟩

instance (t : Code) : Decidable t.IsModifier :=
  decidable_of_iff (t.kind = .ident ∧ t.text ∉ declaringWords)
    ⟨fun ⟨hident, hdeclaring⟩ => ⟨hident, hdeclaring⟩, fun h => ⟨h.ident, h.undeclaring⟩⟩

instance (t : Code) : Decidable t.IsPlain :=
  decidable_of_iff (t.kind = .ident ∧ t.text ∉ declaringWords ∧ t.text ∉ Header.reservedWords)
    ⟨fun ⟨hident, hdeclaring, hreserved⟩ => ⟨hident, hdeclaring, hreserved⟩,
      fun h => ⟨h.ident, h.undeclaring, h.unreserved⟩⟩

instance (t : Code) : Decidable t.IsName :=
  decidable_of_iff (t.IsPlain ∧ t.text.head? ≠ some '@')
    ⟨fun ⟨hplain, hunsigned⟩ => ⟨hplain, hunsigned⟩, fun h => ⟨h.toIsPlain, h.unsigned⟩⟩

/-- The token of a word. -/
def word (s : String) : Code := ⟨.ident, s.toList⟩

/-- The token of a sign. -/
def sign (kind : TokenKind) (s : String) : Code := ⟨kind, s.toList⟩

def roundOpen : Code := sign .parenOpen "("

def roundClose : Code := sign .parenClose ")"

def squareOpen : Code := sign .bracketOpen "["

def squareClose : Code := sign .bracketClose "]"

def curlyOpen : Code := sign .braceOpen "\x7b"

def curlyClose : Code := sign .braceClose "\x7d"

def angleOpen : Code := sign .angleOpen "<"

def angleClose : Code := sign .angleClose ">"

def semicolon : Code := sign .semicolon ";"

def comma : Code := sign .comma ","

def dot : Code := sign .dot "."

def assign : Code := sign .assign "="

def arrow : Code := sign .arrow "=>"

def questionMark : Code := sign .operator "?"

/-- A name is what it is without the sign. -/
theorem IsName.plainName_eq {t : Code} (h : t.IsName) : t.plainName = t.text := by
  have hunsigned := h.unsigned
  unfold plainName
  cases htext : t.text with
  | nil => rfl
  | cons c rest =>
    rw [htext] at hunsigned
    refine List.dropWhile_cons_of_neg ?_
    simpa using hunsigned

theorem isOneOf_eq_false_of_subset {t : Code} {words words' : List Text} (hsub : words ⊆ words')
    (h : t.isOneOf words' = false) : t.isOneOf words = false := by
  rw [isOneOf, List.any_eq_false] at h ⊢
  exact fun word hword => h word (hsub hword)

/-- A token that is no word, or a plain one, does not tell what a member is. -/
theorem isOneOf_declaringWords {t : Code} (h : t.kind = .ident → t.IsPlain) :
    t.isOneOf declaringWords = false := by
  rw [isOneOf, List.any_eq_false]
  intro word hword his
  obtain ⟨hkind, htext⟩ : t.kind = .ident ∧ t.text = word := by simpa [isWord] using his
  refine (h hkind).undeclaring ?_
  rw [htext]
  exact hword

end Code

/-! ## Types -/

mutual

inductive IsType : List Code → Prop where
  | name (x : Code) (hx : x.IsPlain) : IsType [x]
  | qualified (t : List Code) (x : Code) (ht : IsType t) (hx : x.IsPlain) : IsType (t ++ [.dot, x])
  | generic (t arguments : List Code) (ht : IsType t) (harguments : IsTypeArguments arguments) :
      IsType (t ++ .angleOpen :: (arguments ++ [.angleClose]))
  | array (t : List Code) (commas : Nat) (ht : IsType t) :
      IsType (t ++ .squareOpen :: (List.replicate commas .comma ++ [.squareClose]))
  | nullable (t : List Code) (ht : IsType t) : IsType (t ++ [.questionMark])

/-- The code is one type or several, with commas between them. -/
inductive IsTypeArguments : List Code → Prop where
  | one (t : List Code) (ht : IsType t) : IsTypeArguments t
  | more (t rest : List Code) (ht : IsType t) (hrest : IsTypeArguments rest) :
      IsTypeArguments (t ++ .comma :: rest)

end

/-! ## Code that is passed over -/

/-- Whether tokens of the kind stand in names and types. -/
def TokenKind.isQuiet : TokenKind → Bool
  | ident | dot | comma | angleOpen | angleClose | operator => true
  | _ => false

theorem TokenKind.isBracket_of_isQuiet {kind : TokenKind} (h : kind.isQuiet = true) :
    kind.isBracket = false := by
  cases kind <;> first | rfl | exact Bool.noConfusion h

/-- The code is made of plain words, of signs that stand between and behind them, and of square
brackets with balanced code in them. -/
inductive Quiet : List Code → Prop where
  | nil : Quiet []
  | token (t : Code) (rest : List Code) (ht : t.kind.isQuiet = true) (hplain : t.kind = .ident → t.IsPlain)
      (hrest : Quiet rest) : Quiet (t :: rest)
  | rank (inner rest : List Code) (hinner : Balanced true inner) (hrest : Quiet rest) :
      Quiet (.squareOpen :: (inner ++ .squareClose :: rest))

namespace Quiet

theorem append {a b : List Code} (ha : Quiet a) (hb : Quiet b) : Quiet (a ++ b) := by
  induction ha with
  | nil => exact hb
  | token t rest ht hplain _ ih => exact .token t _ ht hplain ih
  | rank inner rest hinner _ ih =>
    rw [List.cons_append, List.append_assoc]
    exact .rank inner _ hinner ih

theorem plain {t : Code} {rest : List Code} (ht : t.IsPlain) (hrest : Quiet rest) : Quiet (t :: rest) :=
  .token t rest (by rw [ht.ident]; rfl) (fun _ => ht) hrest

theorem of_forall_isPlain {words : List Code} (h : ∀ t ∈ words, t.IsPlain) : Quiet words := by
  induction words with
  | nil => exact .nil
  | cons t rest ih =>
    exact plain (h t List.mem_cons_self) (ih fun u hu => h u (List.mem_cons_of_mem t hu))

end Quiet

theorem balanced_replicate_comma (n : Nat) : Balanced true (List.replicate n .comma) := by
  induction n with
  | zero => exact .nil
  | succ n ih => exact .token _ _ rfl (fun _ => rfl) ih

mutual

theorem IsType.quiet : {t : List Code} → IsType t → Quiet t
  | _, .name _ hx => .plain hx .nil
  | _, .qualified _ _ ht hx =>
    ht.quiet.append (.token _ _ rfl (fun h => nomatch h) (.plain hx .nil))
  | _, .generic _ _ ht harguments =>
    ht.quiet.append (.token _ _ rfl (fun h => nomatch h)
      (harguments.quiet.append (.token _ _ rfl (fun h => nomatch h) .nil)))
  | _, .array _ commas ht => ht.quiet.append (.rank _ _ (balanced_replicate_comma commas) .nil)
  | _, .nullable _ ht => ht.quiet.append (.token _ _ rfl (fun h => nomatch h) .nil)

theorem IsTypeArguments.quiet : {arguments : List Code} → IsTypeArguments arguments → Quiet arguments
  | _, .one _ ht => ht.quiet
  | _, .more _ _ ht hrest => ht.quiet.append (.token _ _ rfl (fun h => nomatch h) hrest.quiet)

end

theorem head?_kind_append {a : List Code} {kind : TokenKind} (h : a.head?.map Code.kind = some kind)
    (b : List Code) : (a ++ b).head?.map Code.kind = some kind := by
  cases a with
  | nil => exact absurd h (by simp)
  | cons t a => exact h

theorem IsType.head?_kind : {t : List Code} → IsType t → t.head?.map Code.kind = some .ident
  | _, .name _ hx => congrArg some hx.ident
  | _, .qualified _ _ ht _ => head?_kind_append ht.head?_kind _
  | _, .generic _ _ ht _ => head?_kind_append ht.head?_kind _
  | _, .array _ _ ht => head?_kind_append ht.head?_kind _
  | _, .nullable _ ht => head?_kind_append ht.head?_kind _

theorem Code.IsModifier.namesOperator_eq_false {t : Code} (h : t.IsModifier) :
    Header.namesOperator t = false := by
  have hmem : "operator".toList ∈ declaringWords := by decide +kernel
  have hword : t.text ≠ "operator".toList := by
    intro htext
    exact h.undeclaring (by rw [htext]; exact hmem)
  have hkind : t.kind ≠ .tilde := by
    rw [h.ident]
    decide
  unfold Header.namesOperator isWord
  rw [decide_eq_false hword, decide_eq_false hkind, Bool.and_false, Bool.or_false]

theorem Code.IsPlain.namesOperator_eq_false {t : Code} (h : t.IsPlain) : Header.namesOperator t = false :=
  h.isModifier.namesOperator_eq_false

/-- The last token of a type is no dot, and makes no operator of what follows it. -/
theorem IsType.getLast?_eq {t : List Code} (h : IsType t) :
    ∃ l, t.getLast? = some l ∧ l.kind ≠ .dot ∧ Header.namesOperator l = false := by
  cases h with
  | name x hx => exact ⟨x, rfl, by rw [hx.ident]; decide, hx.namesOperator_eq_false⟩
  | qualified t x ht hx =>
    exact ⟨x, by simp, by rw [hx.ident]; decide, hx.namesOperator_eq_false⟩
  | generic t arguments ht harguments =>
    refine ⟨.angleClose, ?_, by decide, by decide⟩
    rw [← List.cons_append, ← List.append_assoc, List.getLast?_concat]
  | array t commas ht =>
    refine ⟨.squareClose, ?_, by decide, by decide⟩
    rw [← List.cons_append, ← List.append_assoc, List.getLast?_concat]
  | nullable t ht => exact ⟨.questionMark, List.getLast?_concat, by decide, by decide⟩

/-! ## Passing over code in a header -/

namespace Header

/-- The code belongs to the header in which it stands. -/
def Passes (p : List Code) : Prop :=
  ∀ rest, measure 0 (p ++ rest) = (p.length + (measure 0 rest).1, (measure 0 rest).2)

theorem passes_nil : Passes [] := by
  intro rest
  rw [List.nil_append, List.length_nil, Nat.zero_add]

theorem Passes.append {a b : List Code} (ha : Passes a) (hb : Passes b) : Passes (a ++ b) := by
  intro rest
  rw [List.append_assoc, ha, hb, List.length_append]
  exact Prod.ext (by dsimp only; omega) rfl

theorem passes_of_ofKind?_eq_none {t : Code} (ht : t.kind.isBracket = false)
    (hnone : HeaderEnd.ofKind? t.kind = none) : Passes [t] := by
  intro rest
  rw [List.singleton_append, measure_other (ne_round_square_of_isBracket ht) (Or.inl hnone),
    List.length_singleton, Nat.add_comm]

theorem passes_token {t : Code} (ht : t.kind.isQuiet = true) : Passes [t] := by
  refine passes_of_ofKind?_eq_none (TokenKind.isBracket_of_isQuiet ht) ?_
  cases hkind : t.kind <;> rw [hkind] at ht <;> first | rfl | exact Bool.noConfusion ht

theorem passes_group {t u : Code} (ht : t.kind = .parenOpen ∨ t.kind = .bracketOpen)
    (hu : u.kind = .parenClose ∨ u.kind = .bracketClose) {semicolons : Bool} {inner : List Code}
    (h : Balanced semicolons inner) : Passes (t :: (inner ++ [u])) := by
  intro rest
  rw [List.cons_append, List.append_assoc, measure_opening ht, measure_append h Nat.one_pos,
    List.singleton_append, measure_closing hu]
  simp only [List.length_cons, List.length_append, List.length_nil]
  exact Prod.ext (by dsimp only; omega) rfl

theorem passes_quiet {p : List Code} (h : Quiet p) : Passes p := by
  induction h with
  | nil => exact passes_nil
  | token t rest ht _ _ ih => exact (passes_token ht).append ih
  | rank inner rest hinner _ ih =>
    have hgroup := passes_group (t := .squareOpen) (u := .squareClose) (Or.inr rfl) (Or.inr rfl) hinner
    have happend := hgroup.append ih
    rwa [List.cons_append, List.append_assoc, List.singleton_append] at happend

/-- The header ends where a token outside of brackets ends it. -/
theorem Passes.measure_append {p : List Code} (hp : Passes p) {t : Code} {ending : HeaderEnd}
    (ht : HeaderEnd.ofKind? t.kind = some ending) (rest : List Code) :
    measure 0 (p ++ t :: rest) = (p.length, ending) := by
  have hend : measure 0 (t :: rest) = (0, ending) := by
    rw [measure]
    split
    case h_5 => rw [if_pos rfl, ht]
    all_goals
      next hkind =>
        rw [hkind] at ht
        exact absurd ht (by simp [HeaderEnd.ofKind?])
  rw [hp, hend, Nat.add_zero]

/-- A place that looks neither like a word which tells a member nor like its parameters. -/
structure Place.IsQuiet (q : Place) : Prop where
  opens : q.opensParameters = false
  declares : q.token.isOneOf declaringWords = false

/-- The places of quiet code are quiet. -/
theorem topLevel_quiet {p : List Code} (h : Quiet p) (before rest : List Code) :
    ∃ qs, topLevel 0 before (p ++ rest) = qs ++ topLevel 0 (p.reverse ++ before) rest ∧
      ∀ q ∈ qs, q.IsQuiet := by
  induction h generalizing before with
  | nil => exact ⟨[], rfl, by simp⟩
  | token t p ht hplain _ ih =>
    obtain ⟨qs, hqs, hquiet⟩ := ih (t :: before)
    have hother := ne_round_square_of_isBracket (TokenKind.isBracket_of_isQuiet ht)
    refine ⟨⟨before, t, p ++ rest⟩ :: qs, ?_, List.forall_mem_cons.mpr ⟨⟨?_, ?_⟩, hquiet⟩⟩
    · rw [List.cons_append, topLevel_other hother, if_pos rfl, hqs, List.reverse_cons, List.append_assoc]
      rfl
    · exact decide_eq_false hother.1
    · exact Code.isOneOf_declaringWords hplain
  | rank inner p hinner _ ih =>
    -- only the bracket that opens the rank is outside of brackets
    obtain ⟨qs, hqs, hquiet⟩ := ih (.squareClose :: (inner.reverse ++ .squareOpen :: before))
    refine ⟨⟨before, .squareOpen, inner ++ .squareClose :: (p ++ rest)⟩ :: qs, ?_,
      List.forall_mem_cons.mpr ⟨⟨by rfl, by rfl⟩, hquiet⟩⟩
    rw [List.cons_append, List.append_assoc, List.cons_append, topLevel_opening (Or.inr rfl), if_pos rfl,
      topLevel_append hinner Nat.one_pos, topLevel_closing (Or.inr rfl), hqs]
    simp

end Header

/-! ## Headers by their parts -/

/-- The parts of a header: what stands before and behind the word that tells the member, where there is
one, and what stands between the brackets of the parameters, where there are some. -/
structure HeaderSpelling where
  before : List Code
  word : Option Code
  behind : List Code
  parameters : Option (List Code)

namespace HeaderSpelling

/-- The parameters with their brackets. -/
def parametersCode (h : HeaderSpelling) : List Code :=
  match h.parameters with
  | none => []
  | some inner => .roundOpen :: (inner ++ [.roundClose])

/-- The header without its parameters. -/
def names (h : HeaderSpelling) : List Code := h.before ++ (h.word.toList ++ h.behind)

def code (h : HeaderSpelling) : List Code := h.names ++ h.parametersCode

/-- The parts of the header are what they seem. -/
structure IsQuiet (h : HeaderSpelling) : Prop where
  before : Quiet h.before
  word : ∀ w ∈ h.word, w.kind = .ident
  behind : Quiet h.behind
  parameters : ∀ inner ∈ h.parameters, Balanced false inner

variable {h : HeaderSpelling}

theorem passes_code (hq : h.IsQuiet) : Header.Passes h.code := by
  have hword : Header.Passes h.word.toList := by
    cases hw : h.word with
    | none => exact Header.passes_nil
    | some w => exact Header.passes_token (by rw [hq.word w hw]; rfl)
  have hparameters : Header.Passes h.parametersCode := by
    unfold parametersCode
    cases hp : h.parameters with
    | none => exact Header.passes_nil
    | some inner => exact Header.passes_group (Or.inl rfl) (Or.inl rfl) (hq.parameters inner hp)
  have hnames := (Header.passes_quiet hq.before).append (hword.append (Header.passes_quiet hq.behind))
  exact hnames.append hparameters

/-- **A header ends where a token outside of brackets ends it.** -/
theorem measure_code (hq : h.IsQuiet) {t : Code} {ending : HeaderEnd}
    (ht : HeaderEnd.ofKind? t.kind = some ending) (rest : List Code) :
    Header.measure 0 (h.code ++ t :: rest) = (h.code.length, ending) :=
  (passes_code hq).measure_append ht rest

/-- The place of the word that tells the member. -/
def wordPlaces (h : HeaderSpelling) : List Header.Place :=
  h.word.toList.map fun w => ⟨h.before.reverse, w, h.behind ++ h.parametersCode⟩

/-- The place at which the parameters open. -/
def parameterPlaces (h : HeaderSpelling) : List Header.Place :=
  h.parameters.toList.map fun inner => ⟨h.names.reverse, .roundOpen, inner ++ [.roundClose]⟩

/-- **The places of a header**: all but two of them are quiet. -/
theorem places_code (hq : h.IsQuiet) :
    ∃ ps qs, Header.places h.code = ps ++ (h.wordPlaces ++ (qs ++ h.parameterPlaces)) ∧
      (∀ p ∈ ps, p.IsQuiet) ∧ ∀ q ∈ qs, q.IsQuiet := by
  have hbehind : ∀ before, ∃ qs,
      Header.topLevel 0 before (h.behind ++ h.parametersCode) =
        qs ++ Header.topLevel 0 (h.behind.reverse ++ before) h.parametersCode ∧
      ∀ q ∈ qs, q.IsQuiet :=
    fun before => Header.topLevel_quiet hq.behind before h.parametersCode
  have hparameters : Header.topLevel 0 h.names.reverse h.parametersCode = h.parameterPlaces := by
    unfold parametersCode parameterPlaces
    cases hp : h.parameters with
    | none => rfl
    | some inner =>
      dsimp only
      rw [Header.topLevel_opening (Or.inl rfl), if_pos rfl,
        Header.topLevel_append (hq.parameters inner hp) Nat.one_pos, Header.topLevel_closing (Or.inl rfl)]
      rfl
  obtain ⟨ps, hps, hpsQuiet⟩ :=
    Header.topLevel_quiet hq.before [] (h.word.toList ++ (h.behind ++ h.parametersCode))
  have hcode : h.code = h.before ++ (h.word.toList ++ (h.behind ++ h.parametersCode)) := by
    simp [code, names]
  unfold Header.places
  rw [hcode, hps]
  unfold wordPlaces
  cases hw : h.word with
  | none =>
    obtain ⟨qs, hqs, hqsQuiet⟩ := hbehind h.before.reverse
    refine ⟨ps, qs, ?_, hpsQuiet, hqsQuiet⟩
    rw [← hparameters]
    simp [hqs, names, hw]
  | some w =>
    obtain ⟨qs, hqs, hqsQuiet⟩ := hbehind (w :: h.before.reverse)
    refine ⟨ps, qs, ?_, hpsQuiet, hqsQuiet⟩
    have hkind := hq.word w hw
    have hother : w.kind ≠ .parenOpen ∧ w.kind ≠ .bracketOpen ∧ w.kind ≠ .parenClose ∧
        w.kind ≠ .bracketClose := by
      rw [hkind]
      decide
    rw [← hparameters, Option.toList_some, List.singleton_append, List.append_nil,
      Header.topLevel_other hother, if_pos rfl, hqs]
    simp [names, hw]

theorem opensParameters_of_mem_wordPlaces (hq : h.IsQuiet) {p : Header.Place}
    (hp : p ∈ h.wordPlaces) : p.opensParameters = false := by
  obtain ⟨w, hw, rfl⟩ := List.mem_map.mp hp
  have hkind := hq.word w (Option.mem_toList.mp hw)
  refine decide_eq_false ?_
  rw [hkind]
  decide

theorem opensParameters_of_mem_parameterPlaces {p : Header.Place} (hp : p ∈ h.parameterPlaces) :
    p.opensParameters = true := by
  obtain ⟨inner, -, rfl⟩ := List.mem_map.mp hp
  rfl

theorem placesBeforeParameters_code (hq : h.IsQuiet) :
    ∃ ps qs, Header.placesBeforeParameters h.code = ps ++ (h.wordPlaces ++ qs) ∧
      (∀ p ∈ ps, p.IsQuiet) ∧ ∀ q ∈ qs, q.IsQuiet := by
  obtain ⟨ps, qs, hplaces, hps, hqs⟩ := places_code hq
  refine ⟨ps, qs, ?_, hps, hqs⟩
  have hstop : h.parameterPlaces.takeWhile (fun p => ! p.opensParameters) = [] := by
    cases hp : h.parameterPlaces with
    | nil => rfl
    | cons p rest =>
      have hopens := opensParameters_of_mem_parameterPlaces (h := h) (p := p) (by rw [hp]; simp)
      exact List.takeWhile_cons_of_neg (by simp [hopens])
  unfold Header.placesBeforeParameters
  rw [hplaces, List.takeWhile_append_of_pos fun p hp => by simp [(hps p hp).opens],
    List.takeWhile_append_of_pos fun p hp => by simp [opensParameters_of_mem_wordPlaces hq hp],
    List.takeWhile_append_of_pos fun p hp => by simp [(hqs p hp).opens], hstop, List.append_nil]

theorem find?_eq_none_of_quiet {words : List Text} (hsub : words ⊆ declaringWords)
    {ps : List Header.Place} (hps : ∀ p ∈ ps, p.IsQuiet) :
    ps.find? (fun p => p.token.isOneOf words) = none := by
  rw [List.find?_eq_none]
  intro p hp
  rw [Code.isOneOf_eq_false_of_subset hsub (hps p hp).declares]
  exact Bool.false_ne_true

/-- **A word that does not stand in a header is not found in it.** -/
theorem findWord?_eq_none (hq : h.IsQuiet) {words : List Text} (hsub : words ⊆ declaringWords)
    (hword : ∀ w ∈ h.word, w.isOneOf words = false) : Header.findWord? words h.code = none := by
  obtain ⟨ps, qs, hplaces, hps, hqs⟩ := placesBeforeParameters_code hq
  have hnone : h.wordPlaces.find? (fun p => p.token.isOneOf words) = none := by
    rw [List.find?_eq_none]
    intro p hp
    obtain ⟨w, hw, rfl⟩ := List.mem_map.mp hp
    rw [hword w (Option.mem_toList.mp hw)]
    exact Bool.false_ne_true
  unfold Header.findWord?
  rw [hplaces, List.find?_append, List.find?_append, find?_eq_none_of_quiet hsub hps, hnone,
    find?_eq_none_of_quiet hsub hqs]
  rfl

theorem findWord?_eq_none_of_word (hq : h.IsQuiet) {w : Code} (hw : h.word = some w)
    (words : List Text) (hsub : words ⊆ declaringWords) (hother : w.isOneOf words = false) :
    Header.findWord? words h.code = none := by
  refine findWord?_eq_none hq hsub ?_
  rw [hw]
  rintro _ ⟨⟩
  exact hother

/-- **The word that tells the member is found where it stands.** -/
theorem findWord?_eq_some (hq : h.IsQuiet) {w : Code} (hw : h.word = some w) (words : List Text)
    (hsub : words ⊆ declaringWords) (hword : w.isOneOf words = true) :
    Header.findWord? words h.code =
      some ⟨h.before.reverse, w, h.behind ++ h.parametersCode⟩ := by
  obtain ⟨ps, qs, hplaces, hps, hqs⟩ := placesBeforeParameters_code hq
  unfold Header.findWord?
  rw [hplaces, List.find?_append, List.find?_append, find?_eq_none_of_quiet hsub hps]
  simp [wordPlaces, hw, hword]

/-- **Parameters are found just where there are some.** -/
theorem any_opensParameters (hq : h.IsQuiet) :
    (Header.places h.code).any Header.Place.opensParameters = h.parameters.isSome := by
  obtain ⟨ps, qs, hplaces, hps, hqs⟩ := places_code hq
  have hpsAny : ps.any Header.Place.opensParameters = false :=
    List.any_eq_false.mpr fun p hp => by simp [(hps p hp).opens]
  have hqsAny : qs.any Header.Place.opensParameters = false :=
    List.any_eq_false.mpr fun p hp => by simp [(hqs p hp).opens]
  have hwordAny : h.wordPlaces.any Header.Place.opensParameters = false :=
    List.any_eq_false.mpr fun p hp => by simp [opensParameters_of_mem_wordPlaces hq hp]
  rw [hplaces, List.any_append, List.any_append, List.any_append, hpsAny, hwordAny, hqsAny]
  unfold parameterPlaces
  cases h.parameters <;> rfl

theorem methodName?_append {enclosing : Option Enclosing} {ps : List Header.Place}
    (hps : ∀ p ∈ ps, p.opensParameters = false) (qs : List Header.Place) :
    Header.methodName? enclosing (ps ++ qs) = Header.methodName? enclosing qs := by
  induction ps with
  | nil => rfl
  | cons p ps ih =>
    rw [List.cons_append, Header.methodName?, hps p List.mem_cons_self]
    exact ih fun q hq => hps q (List.mem_cons_of_mem p hq)

theorem nameBefore?_of_ident {x : Code} (hx : x.kind = .ident) (rest : List Code) :
    Header.nameBefore? (x :: rest) = some (x, rest) := by
  have hangle : ¬ x.kind = .angleClose := by
    rw [hx]
    decide
  unfold Header.nameBefore?
  simp only [if_neg hangle, if_pos hx]

/-- Where no dot stands before a name, it has no qualifiers. -/
theorem dropQualifiers_of_ne_dot {tokens : List Code} (h : ∀ l ∈ tokens.head?, l.kind ≠ .dot) :
    Header.dropQualifiers tokens = tokens := by
  unfold Header.dropQualifiers
  split
  · next dot name rest =>
    have hdot : dot.kind ≠ .dot := h dot rfl
    simp [hdot]
  · rfl

/-- **The name of a method is the one before its parameters**, where a type stands before the name, or
the name is that of the type around it. -/
theorem methodName?_code (hq : h.IsQuiet) (enclosing : Option Enclosing) {inner : List Code}
    (front : List Code) {x : Code} (hparameters : h.parameters = some inner)
    (hnames : h.names = front ++ [x]) (hx : x.IsName)
    (hoperator : ∀ l ∈ front.getLast?, Header.namesOperator l = false)
    (hdot : ∀ l ∈ front.getLast?, l.kind ≠ .dot)
    (hnamed : front ≠ [] ∨ ∃ e ∈ enclosing, e.kind = .type ∧ e.name = x.text) :
    Header.methodName? enclosing (Header.places h.code) = some x.text := by
  obtain ⟨ps, qs, hplaces, hps, hqs⟩ := places_code hq
  have hplace : h.parameterPlaces = [⟨x :: front.reverse, .roundOpen, inner ++ [.roundClose]⟩] := by
    simp [parameterPlaces, hparameters, hnames]
  have hreserved : Header.reservedWords.contains x.text = false := by
    simpa using hx.unreserved
  have hhead : front.reverse.head? = front.getLast? := List.head?_reverse
  have hoperator' : front.reverse.head?.any Header.namesOperator = false := by
    rw [hhead]
    cases hlast : front.getLast? with
    | none => rfl
    | some l => exact hoperator l hlast
  have hqualifiers : Header.dropQualifiers front.reverse = front.reverse :=
    dropQualifiers_of_ne_dot (by rw [hhead]; exact hdot)
  have hunnamed : (front.reverse.isEmpty &&
      ! enclosing.any fun e => e.kind = .type && e.name = x.text) = false := by
    rcases hnamed with hne | ⟨e, he, hkind, hname⟩
    · simp [hne]
    · obtain rfl : enclosing = some e := he
      simp [hkind, hname]
  rw [hplaces, methodName?_append fun p hp => (hps p hp).opens,
    methodName?_append fun p hp => opensParameters_of_mem_wordPlaces hq hp,
    methodName?_append fun p hp => (hqs p hp).opens, hplace, Header.methodName?]
  simp only [Header.Place.opensParameters, Code.roundOpen, Code.sign, decide_true, Bool.not_true,
    Bool.false_eq_true, if_false, nameBefore?_of_ident hx.ident, hreserved, hoperator', hqualifiers,
    hx.plainName_eq, hunnamed]

end HeaderSpelling

theorem propertyName?_append {front : List Code} (hfront : front ≠ []) {x : Code} (hx : x.IsName) :
    Header.propertyName? (front ++ [x]) = some x.text := by
  obtain ⟨l, rest, hreverse⟩ := List.exists_cons_of_ne_nil (List.reverse_ne_nil_iff.mpr hfront)
  have hthis : x.text ≠ "this".toList := by
    intro htext
    refine hx.unreserved ?_
    rw [htext]
    decide +kernel
  have hreserved : Header.reservedWords.contains x.text = false := by
    simpa using hx.unreserved
  unfold Header.propertyName?
  rw [List.reverse_append, List.reverse_singleton, List.singleton_append, hreverse]
  simp only [hx.ident, hx.plainName_eq, hreserved, decide_true, Bool.not_false, Bool.and_true, ne_eq, hthis,
    not_false_eq_true, if_true]

theorem typeName?_eq_some {before : List Code} {w x : Code} (hx : x.IsName)
    (hw : w.isWord "record".toList = false) :
    Header.typeName? ⟨before, w, [x]⟩ = some x.text := by
  have hplain := Code.isOneOf_declaringWords (t := x) fun _ => hx.toIsPlain
  have hsub : Header.typeWords ⊆ declaringWords := List.subset_append_right _ _
  unfold Header.typeName?
  simp only [hw, Bool.false_and, Bool.false_eq_true, if_false, hx.ident, decide_true, Bool.true_and,
    Code.isOneOf_eq_false_of_subset hsub hplain, Bool.not_false, if_true, hx.plainName_eq]

end Excerpt
