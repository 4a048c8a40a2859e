import Excerpt.Proofs.Source.Forest
import Excerpt.Proofs.Source.Member

/-!
# Excerpt — members are read as they are spelled

* **`split_spelled`** — the code of a member is split where its parts meet.
* **`Ending.tailLength_code`**, **`Ending.bodyOf_code`** — what follows a header is read up to its end.
* **`read_parameters`**, **`read_property`**, **`read_field`**, **`read_event`**, **`read_delegate`**,
  **`read_namespace`**, **`read_type`** — the words and parameters of a header decide what is read.
* **`LeafMember.read_leaf`**, **`BlockHeader.read_block`** — what is read at the start of a forest.
-/

namespace Excerpt

/-! ## What follows a header -/

namespace Ending

theorem exists_code_eq_cons (e : Ending) :
    ∃ t rest, e.code = t :: rest ∧ HeaderEnd.ofKind? t.kind = some e.headerEnd := by
  cases e with
  | block inner => exact ⟨_, _, rfl, rfl⟩
  | arrow e => exact ⟨_, _, rfl, rfl⟩
  | assign e => exact ⟨_, _, rfl, rfl⟩
  | semicolon => exact ⟨_, _, rfl, rfl⟩

theorem expressionLength_code (e : Expression) (rest : List Code) :
    Code.expressionLength 0 (e.val ++ [.semicolon] ++ rest) = e.val.length + 1 := by
  rw [List.append_assoc]
  exact Code.expressionLength_semicolon e.property rfl rest

/-- **What follows a header is read up to its end.** -/
theorem tailLength_code (e : Ending) (rest : List Code) :
    Member.tailLength e.headerEnd (e.code ++ rest) = e.code.length := by
  cases e with
  | block inner =>
    have hgroup := Code.groupLength_group .curly inner.property (c := .curlyClose) rfl rest
    show Code.groupLength .braceOpen .braceClose 0 (.curlyOpen :: (inner.val ++ [.curlyClose] ++ rest)) = _
    rw [Code.groupLength_opening (show Code.curlyOpen.kind = .braceOpen from rfl), List.append_assoc,
      List.singleton_append, hgroup]
    simp [code]
  | arrow e =>
    show Code.expressionLength 0 (e.val ++ [.semicolon] ++ rest) + 1 = _
    rw [expressionLength_code]
    simp [code]
  | assign e =>
    show Code.expressionLength 0 (e.val ++ [.semicolon] ++ rest) + 1 = _
    rw [expressionLength_code]
    simp [code]
  | semicolon => rfl

theorem length_code_block (inner : BlockCode) : (block inner).code.length = inner.val.length + 2 := by
  simp [code]

theorem length_code_arrow (e : Expression) : (arrow e).code.length = e.val.length + 2 := by
  simp [code]

/-- **The body is where it stands.** -/
theorem bodyOf_code (e : Ending) (header : Nat) (rest : List Code) :
    Member.bodyOf e.headerEnd header (e.code ++ rest) = e.body header := by
  cases e with
  | block inner =>
    have htail : Member.tailLength .block ((block inner).code ++ rest) = inner.val.length + 2 :=
      (tailLength_code (block inner) rest).trans (length_code_block inner)
    show BodyExtent.between? header (header + Member.tailLength .block _ - 1) = _
    rw [htail]
    rfl
  | arrow e =>
    have htail : Member.tailLength .arrow ((arrow e).code ++ rest) = e.val.length + 2 :=
      (tailLength_code (arrow e) rest).trans (length_code_arrow e)
    have hlast : ((arrow e).code ++ rest)[e.val.length + 1]? = some .semicolon := by
      rw [show (arrow e).code ++ rest = .arrow :: (e.val ++ .semicolon :: rest) from by simp [code],
        List.getElem?_cons_succ, List.getElem?_append_right (Nat.le_refl _), Nat.sub_self]
      rfl
    unfold Member.bodyOf headerEnd
    dsimp only
    rw [htail, show header + (e.val.length + 2) - 1 - header = e.val.length + 1 from by omega, hlast]
    simp only [Option.any_some, Code.semicolon, Code.sign, decide_true, if_true]
    rw [show header + (e.val.length + 2) - 1 - 1 = header + e.val.length from by omega]
    show _ = if e.val = [] then none else
      some (BodyExtent.expression (header + 1) (header + e.val.length))
    by_cases hnil : e.val = []
    · rw [if_pos hnil, if_neg (by rw [hnil]; simp)]
    · have hpos := List.length_pos_iff.mpr hnil
      rw [if_neg hnil, if_pos (by omega)]
  | assign e => rfl
  | semicolon => rfl

end Ending

/-! ## Splitting a member -/

/-- Attribute sections end where something else begins. -/
theorem attributesLength_append (sections : Sections) {s : List Code}
    (hs : s.head?.map Code.kind ≠ some .bracketOpen) :
    Member.attributesLength (sections.code ++ s) = sections.code.length := by
  induction sections with
  | nil =>
    show Member.attributesLength s = 0
    unfold Member.attributesLength
    cases s with
    | nil => rfl
    | cons t rest =>
      have ht : t.kind ≠ .bracketOpen := fun hkind => hs (congrArg some hkind)
      exact if_neg ht
  | cons inner sections ih =>
    have hgroup := Code.groupLength_group .square inner.property
      (show Code.squareClose.kind = .bracketClose from rfl) (Sections.code sections ++ s)
    have hcode : Sections.code (inner :: sections) ++ s =
        .squareOpen :: (inner.val ++ .squareClose :: (Sections.code sections ++ s)) := by
      simp [Sections.code]
    have hdrop : (inner.val ++ .squareClose :: (Sections.code sections ++ s)).drop
        (inner.val.length + 1) = Sections.code sections ++ s := by
      simp
    rw [hcode, Member.attributesLength, if_pos (show Code.squareOpen.kind = .bracketOpen from rfl)]
    dsimp only
    rw [hgroup, hdrop, ih]
    simp only [Sections.code, List.flatMap_cons, List.length_append, List.length_cons, List.length_nil]

/-- The code of a member is split where a header ends that nothing in it ends. -/
theorem split_of_passes (sections : Sections) {header : List Code} (hp : Header.Passes header)
    (hhead : header.head?.map Code.kind ≠ some .bracketOpen) (hne : header ≠ []) {t : Code} {ending : HeaderEnd}
    (ht : HeaderEnd.ofKind? t.kind = some ending) (rest : List Code) :
    Member.split (sections.code ++ (header ++ t :: rest)) =
      ⟨sections.code.length, header, ending, t :: rest⟩ := by
  have hattributes : Member.attributesLength (sections.code ++ (header ++ t :: rest)) = sections.code.length := by
    refine attributesLength_append sections ?_
    obtain ⟨u, header', rfl⟩ := List.exists_cons_of_ne_nil hne
    exact hhead
  unfold Member.split
  dsimp only
  rw [hattributes, List.drop_left, hp.measure_append ht]
  dsimp only
  rw [List.take_left, List.drop_left]

/-- **The code of a member is split where its parts meet.** -/
theorem split_spelled (sections : Sections) {h : HeaderSpelling} (hq : h.IsQuiet)
    (hhead : h.code.head?.map Code.kind = some .ident) {t : Code} {ending : HeaderEnd}
    (ht : HeaderEnd.ofKind? t.kind = some ending) (rest : List Code) :
    Member.split (sections.code ++ (h.code ++ t :: rest)) =
      ⟨sections.code.length, h.code, ending, t :: rest⟩ := by
  refine split_of_passes sections (HeaderSpelling.passes_code hq) (by rw [hhead]; decide) ?_ ht rest
  rintro hnil
  rw [hnil] at hhead
  exact nomatch hhead

theorem length_spelled (sections : Sections) (h : HeaderSpelling) (e : Ending) (rest : List Code) :
    (⟨sections.code.length, h.code, e.headerEnd, e.code ++ rest⟩ : Member.Parts).length =
      sections.code.length + h.code.length + e.code.length := by
  rw [Member.Parts.length, Member.Parts.headerEnd, Ending.tailLength_code]

namespace LeafMember

theorem quiet_modifiers (m : Modifiers) : Quiet m.val := .of_forall_isPlain m.property

theorem quiet_code (head : TypedName) : Quiet head.code :=
  head.type.property.quiet.append (.plain head.name.property.toIsPlain .nil)

theorem balanced_of_mem_some (e : Expression) : ∀ inner ∈ some e.val, Balanced false inner := by
  rintro _ ⟨⟩
  exact e.property

/-- A header that no word tells. -/
theorem isQuiet_of_word_eq_none {before : List Code} {parameters : Option (List Code)}
    (hbefore : Quiet before) (hparameters : ∀ inner ∈ parameters, Balanced false inner) :
    HeaderSpelling.IsQuiet ⟨before, none, [], parameters⟩ :=
  ⟨hbefore, nofun, .nil, hparameters⟩

theorem isQuiet_header (m : LeafMember) : m.header.IsQuiet := by
  have htyped : ∀ (m : Modifiers) (head : TypedName), Quiet (m.val ++ head.code) :=
    fun m head => (quiet_modifiers m).append (quiet_code head)
  cases m with
  | method s m head parameters body =>
    exact isQuiet_of_word_eq_none (htyped m head) (balanced_of_mem_some parameters)
  | constructor s m name parameters body =>
    have hname := (quiet_modifiers m).append (.plain name.property.toIsPlain .nil)
    exact isQuiet_of_word_eq_none hname (balanced_of_mem_some parameters)
  | property s m head accessors value => exact isQuiet_of_word_eq_none (htyped m head) nofun
  | arrowProperty s m head e => exact isQuiet_of_word_eq_none (htyped m head) nofun
  | delegate s m head parameters =>
    exact ⟨quiet_modifiers m, by rintro _ ⟨⟩; rfl, quiet_code head, balanced_of_mem_some parameters⟩
  | field s m head value => exact isQuiet_of_word_eq_none (htyped m head) nofun
  | event s m head => exact ⟨quiet_modifiers m, by rintro _ ⟨⟩; rfl, quiet_code head, nofun⟩

theorem head?_kind_modifiers (m : Modifiers) {rest : List Code}
    (hrest : rest.head?.map Code.kind = some .ident) :
    (m.val ++ rest).head?.map Code.kind = some .ident := by
  obtain ⟨words, hwords⟩ := m
  cases words with
  | nil => exact hrest
  | cons w words => exact congrArg some (hwords w List.mem_cons_self).ident

theorem head?_kind_code (head : TypedName) : head.code.head?.map Code.kind = some .ident :=
  head?_kind_append head.type.property.head?_kind _

theorem head?_kind_header (m : LeafMember) : m.header.code.head?.map Code.kind = some .ident := by
  have htyped : ∀ (m : Modifiers) (head : TypedName),
      (m.val ++ head.code).head?.map Code.kind = some .ident :=
    fun m head => head?_kind_modifiers m (head?_kind_code head)
  refine head?_kind_append ?_ _
  cases m with
  | method s m head parameters body => exact head?_kind_append (htyped m head) _
  | constructor s m name parameters body =>
    have hname : [name.val].head?.map Code.kind = some .ident := congrArg some name.property.ident
    exact head?_kind_append (head?_kind_modifiers m hname) _
  | property s m head accessors value => exact head?_kind_append (htyped m head) _
  | arrowProperty s m head e => exact head?_kind_append (htyped m head) _
  | delegate s m head parameters => exact head?_kind_modifiers m rfl
  | field s m head value => exact head?_kind_append (htyped m head) _
  | event s m head => exact head?_kind_modifiers m rfl

theorem split_code (m : LeafMember) (rest : List Code) :
    Member.split (m.code ++ rest) =
      ⟨m.sections.code.length, m.header.code, m.ending.headerEnd,
        m.ending.code ++ (m.valueCode ++ rest)⟩ := by
  rw [show m.code ++ rest = m.sections.code ++ (m.header.code ++ (m.ending.code ++
    (m.valueCode ++ rest))) from by simp [code]]
  obtain ⟨t, tail, hcode, ht⟩ := m.ending.exists_code_eq_cons
  rw [hcode, List.cons_append]
  exact split_spelled m.sections m.isQuiet_header m.head?_kind_header ht _

end LeafMember

/-! ## Reading by the words of the header -/

section Read

variable {enclosing : Option Enclosing} {code : List Code}

/-- Without a word that tells the member, it is told by its ending and its parameters. -/
theorem read_of_findWord?_eq_none
    (hnone : ∀ words ⊆ memberWords, Header.findWord? words (Member.split code).header = none) :
    Member.read enclosing code =
      if (Member.split code).ending = .assign then .whole none (Member.split code).length
      else if (Header.places (Member.split code).header).any Header.Place.opensParameters then
        (Member.split code).asMethod enclosing
      else if (Member.split code).ending = .block || (Member.split code).ending = .arrow then
        (Member.split code).asProperty
      else .whole none (Member.split code).length := by
  unfold Member.read
  dsimp only
  rw [hnone _ (by decide +kernel), hnone Header.typeWords (by decide +kernel), hnone _ (by decide +kernel),
    hnone _ (by decide +kernel)]
  simp only [Option.bind_eq_bind, Option.bind_none, Option.isSome_none, Bool.false_or, Bool.false_eq_true,
    if_false, decide_eq_true_iff]

/-- The same of a header by its parts. -/
theorem read_of_word_eq_none {h : HeaderSpelling} (hq : h.IsQuiet) (hword : h.word = none)
    (hheader : (Member.split code).header = h.code) :
    Member.read enclosing code =
      if (Member.split code).ending = .assign then .whole none (Member.split code).length
      else if h.parameters.isSome then (Member.split code).asMethod enclosing
      else if (Member.split code).ending = .block || (Member.split code).ending = .arrow then
        (Member.split code).asProperty
      else .whole none (Member.split code).length := by
  rw [read_of_findWord?_eq_none, hheader, HeaderSpelling.any_opensParameters hq]
  intro words hsub
  rw [hheader]
  exact HeaderSpelling.findWord?_eq_none hq (List.Subset.trans hsub memberWords_subset) (by simp [hword])

theorem read_parameters {h : HeaderSpelling} (hq : h.IsQuiet) (hword : h.word = none)
    (hheader : (Member.split code).header = h.code) (hending : (Member.split code).ending ≠ .assign)
    (hparameters : h.parameters.isSome) :
    Member.read enclosing code = (Member.split code).asMethod enclosing := by
  rw [read_of_word_eq_none hq hword hheader, if_neg hending, if_pos hparameters]

theorem read_property {h : HeaderSpelling} (hq : h.IsQuiet) (hword : h.word = none)
    (hheader : (Member.split code).header = h.code) (hparameters : h.parameters = none)
    (hending : (Member.split code).ending = .block ∨ (Member.split code).ending = .arrow) :
    Member.read enclosing code = (Member.split code).asProperty := by
  rw [read_of_word_eq_none hq hword hheader, hparameters]
  rcases hending with h | h <;> rw [h] <;> rfl

theorem read_field {h : HeaderSpelling} (hq : h.IsQuiet) (hword : h.word = none)
    (hheader : (Member.split code).header = h.code) (hparameters : h.parameters = none)
    (hending : (Member.split code).ending = .semicolon ∨ (Member.split code).ending = .assign) :
    Member.read enclosing code = .whole none (Member.split code).length := by
  rw [read_of_word_eq_none hq hword hheader, hparameters]
  rcases hending with h | h <;> rw [h] <;> rfl

theorem read_event {h : HeaderSpelling} (hq : h.IsQuiet) (hword : h.word = some (.word "event"))
    (hheader : (Member.split code).header = h.code) :
    Member.read enclosing code = .whole none (Member.split code).length := by
  have hnone := HeaderSpelling.findWord?_eq_none_of_word hq hword
  have hevent := HeaderSpelling.findWord?_eq_some hq hword ["event".toList] (by decide +kernel)
    (by decide +kernel)
  unfold Member.read
  dsimp only
  rw [hheader, hnone _ (by decide +kernel) (by decide +kernel),
    hnone Header.typeWords (by decide +kernel) (by decide +kernel), hevent]
  rfl

theorem read_delegate {h : HeaderSpelling} (hq : h.IsQuiet)
    (hword : h.word = some (.word "delegate")) (hheader : (Member.split code).header = h.code)
    (hending : (Member.split code).ending ≠ .assign) :
    Member.read enclosing code =
      .declare .delegate (Header.methodName? enclosing (Header.places h.code))
        (Member.split code).length none := by
  have hnone := HeaderSpelling.findWord?_eq_none_of_word hq hword
  have hdelegate := HeaderSpelling.findWord?_eq_some hq hword ["delegate".toList] (by decide +kernel)
    (by decide +kernel)
  unfold Member.read
  dsimp only
  rw [hheader, hnone _ (by decide +kernel) (by decide +kernel),
    hnone Header.typeWords (by decide +kernel) (by decide +kernel),
    hnone _ (by decide +kernel) (by decide +kernel), hdelegate, decide_eq_false hending]
  rfl

theorem read_namespace {h : HeaderSpelling} (hq : h.IsQuiet)
    (hword : h.word = some (.word "namespace")) (hheader : (Member.split code).header = h.code) :
    Member.read enclosing code =
      (Member.split code).asNamespace
        ⟨h.before.reverse, .word "namespace", h.behind ++ h.parametersCode⟩ := by
  unfold Member.read
  dsimp only
  rw [hheader, HeaderSpelling.findWord?_eq_some hq hword _ (by decide +kernel) (by decide +kernel)]

theorem read_type {h : HeaderSpelling} (hq : h.IsQuiet) {w : Code} (hword : h.word = some w)
    (hnamespace : w.isOneOf ["namespace".toList] = false) (htype : w.isOneOf Header.typeWords = true)
    (hheader : (Member.split code).header = h.code) {name : Text}
    (hname : Header.typeName? ⟨h.before.reverse, w, h.behind ++ h.parametersCode⟩ = some name) :
    Member.read enclosing code =
      (Member.split code).asType ⟨h.before.reverse, w, h.behind ++ h.parametersCode⟩ name := by
  have hnone : Header.findWord? ["namespace".toList] h.code = none :=
    HeaderSpelling.findWord?_eq_none_of_word hq hword _ (by decide +kernel) hnamespace
  unfold Member.read
  dsimp only
  rw [hheader, hnone, HeaderSpelling.findWord?_eq_some hq hword _ (by decide +kernel) htype]
  simp only [Option.bind_eq_bind, Option.bind_some, hname, Option.pure_def]

end Read

/-! ## Members that are read whole -/

namespace LeafMember

variable {enclosing : Option Enclosing}

theorem headerEnd_split (m : LeafMember) (rest : List Code) :
    (Member.split (m.code ++ rest)).headerEnd = m.sections.code.length + m.header.code.length := by
  rw [split_code]
  rfl

theorem length_split (m : LeafMember) (rest : List Code) :
    (Member.split (m.code ++ rest)).length =
      m.sections.code.length + m.header.code.length + m.ending.code.length := by
  rw [split_code]
  exact length_spelled m.sections m.header m.ending (m.valueCode ++ rest)

theorem length_code (m : LeafMember) :
    m.code.length =
      m.sections.code.length + m.header.code.length + m.ending.code.length + m.valueCode.length := by
  unfold code
  rw [List.length_append, List.length_append, List.length_append]
  omega

theorem bodyOf_split (m : LeafMember) (rest : List Code) :
    Member.bodyOf (Member.split (m.code ++ rest)).ending (Member.split (m.code ++ rest)).headerEnd
        (Member.split (m.code ++ rest)).tail =
      m.ending.body (m.sections.code.length + m.header.code.length) := by
  rw [headerEnd_split, split_code]
  exact Ending.bodyOf_code m.ending _ _

/-- The tokens before the name of a method or delegate end with those of a type. -/
theorem getLast?_front (front : List Code) (head : TypedName) :
    ∃ l, (front ++ head.type.val).getLast? = some l ∧ l.kind ≠ .dot ∧
      Header.namesOperator l = false := by
  obtain ⟨l, hl, hdot, hoperator⟩ := head.type.property.getLast?_eq
  refine ⟨l, ?_, hdot, hoperator⟩
  rw [List.getLast?_append, hl]
  rfl

/-- The name of a method or delegate is found behind its type. -/
theorem methodName?_typed (enclosing : Option Enclosing) {h : HeaderSpelling} (hq : h.IsQuiet)
    (front : List Code) (head : TypedName) {inner : List Code} (hparameters : h.parameters = some inner)
    (hnames : h.names = front ++ head.code) :
    Header.methodName? enclosing (Header.places h.code) = some head.name.val.text := by
  obtain ⟨l, hl, hdot, hoperator⟩ := getLast?_front front head
  have hnames' : h.names = front ++ head.type.val ++ [head.name.val] := by
    rw [hnames, TypedName.code, List.append_assoc]
  refine HeaderSpelling.methodName?_code hq enclosing _ hparameters hnames' head.name.property ?_ ?_
    (Or.inl ?_)
  · rw [hl]
    rintro _ ⟨⟩
    exact hoperator
  · rw [hl]
    rintro _ ⟨⟩
    exact hdot
  · intro hnil
    rw [hnil] at hl
    exact absurd hl (by simp)

/-- A method or constructor, where its name is found. -/
theorem asMethod_eq (m : LeafMember) (rest : List Code) {x : Text}
    (hname : Header.methodName? enclosing (Header.places m.header.code) = some x) :
    (Member.split (m.code ++ rest)).asMethod enclosing =
      .declare (if enclosing.any fun e => e.name = x then .constructor else .method) (some x)
        (m.sections.code.length + m.header.code.length + m.ending.code.length)
        (m.ending.body (m.sections.code.length + m.header.code.length)) := by
  unfold Member.Parts.asMethod
  rw [bodyOf_split, length_split, show (Member.split (m.code ++ rest)).header = m.header.code from by
    rw [split_code], hname]
  simp only [Option.some.injEq]

theorem drop_tailLength_split (m : LeafMember) (rest : List Code) :
    (Member.split (m.code ++ rest)).tail.drop
        (Member.tailLength (Member.split (m.code ++ rest)).ending (Member.split (m.code ++ rest)).tail) =
      m.valueCode ++ rest := by
  rw [split_code]
  dsimp only
  rw [Ending.tailLength_code, List.drop_left]

theorem front_ne_nil (m : Modifiers) (head : TypedName) : m.val ++ head.type.val ≠ [] := by
  obtain ⟨l, hl, -⟩ := getLast?_front m.val head
  intro hnil
  rw [hnil] at hl
  exact absurd hl (by simp)

theorem code_eq_front (m : Modifiers) (head : TypedName) :
    (⟨m.val ++ head.code, none, [], none⟩ : HeaderSpelling).code =
      m.val ++ head.type.val ++ [head.name.val] := by
  simp [HeaderSpelling.code, HeaderSpelling.names, HeaderSpelling.parametersCode, TypedName.code]

/-- A property without a value behind its accessors. -/
theorem asProperty_eq (m : LeafMember) {rest : List Code}
    (hrest : rest.head?.map Code.kind ≠ some .assign) (hvalue : m.valueCode = []) {front : List Code}
    {x : Code} (hfront : front ≠ []) (hx : x.IsName) (hheader : m.header.code = front ++ [x]) :
    (Member.split (m.code ++ rest)).asProperty =
      .declare .property (some x.text) m.code.length
        (m.ending.body (m.sections.code.length + m.header.code.length)) := by
  have hname : Header.propertyName? (Member.split (m.code ++ rest)).header = some x.text := by
    rw [split_code, hheader]
    exact propertyName?_append hfront hx
  unfold Member.Parts.asProperty
  dsimp only
  rw [hname, bodyOf_split, length_split, drop_tailLength_split, length_code, hvalue, List.nil_append]
  split
  · next t rest' _ =>
    have ht : t.kind ≠ .assign := fun hkind => hrest (congrArg some hkind)
    rw [if_neg ht]
    rfl
  · rfl

/-- A property with a value behind its accessors. -/
theorem asProperty_value_eq (s : Sections) (m : Modifiers) (head : TypedName) (accessors : BlockCode)
    (e : Expression) (rest : List Code) :
    (Member.split ((property s m head accessors (some e)).code ++ rest)).asProperty =
      .declare .property (some head.name.val.text) (property s m head accessors (some e)).code.length
        ((Ending.block accessors).body
          (s.code.length + (property s m head accessors (some e)).header.code.length)) := by
  have hname : Header.propertyName?
      (Member.split ((property s m head accessors (some e)).code ++ rest)).header =
        some head.name.val.text := by
    rw [split_code]
    dsimp only [header]
    rw [code_eq_front]
    exact propertyName?_append (front_ne_nil m head) head.name.property
  have hending : (Member.split ((property s m head accessors (some e)).code ++ rest)).ending =
      .block := by
    rw [split_code]
    rfl
  have hvalue : Code.expressionLength 0 (e.val ++ [.semicolon] ++ rest) + 1 =
      (property s m head accessors (some e)).valueCode.length := by
    rw [Ending.expressionLength_code]
    simp [valueCode, Ending.code]
  unfold Member.Parts.asProperty
  dsimp only
  rw [hname, bodyOf_split, length_split, drop_tailLength_split, hending, length_code, ← hvalue]
  rfl

/-- **A member that is not named by mistake is read as it is spelled.** One case for each sort of
member. -/
theorem read_leaf (m : LeafMember) (hnamed : m.IsNamed enclosing) {rest : List Code}
    (hrest : rest.head?.map Code.kind ≠ some .assign) :
    Member.read enclosing (m.code ++ rest) = .whole m.declared m.code.length := by
  have hsplit := split_code m rest
  have hheader : (Member.split (m.code ++ rest)).header = m.header.code := by rw [hsplit]
  have hending : (Member.split (m.code ++ rest)).ending = m.ending.headerEnd := by rw [hsplit]
  have hlength := length_split m rest
  have hcode := length_code m
  have hquiet := isQuiet_header m
  cases m with
  | method s m head parameters body =>
    -- the name is found behind the type, and it is not that of what surrounds the method
    have hassign : body.ending.headerEnd ≠ .assign := by cases body <;> exact HeaderEnd.noConfusion
    have hname := methodName?_typed enclosing hquiet m.val head rfl
      (by simp [header, HeaderSpelling.names])
    have hmethod : (enclosing.any fun e => e.name = head.name.val.text) = false := by
      cases enclosing with
      | none => rfl
      | some e => exact decide_eq_false (hnamed e rfl)
    rw [read_parameters hquiet rfl hheader (by rw [hending]; exact hassign) rfl,
      asMethod_eq _ rest hname, hmethod, declared, hcode]
    rfl
  | constructor s m name parameters body =>
    -- nothing need stand before the name: it is found since the type has it too
    obtain ⟨e, he, hkind, hname⟩ := hnamed
    obtain rfl : enclosing = some e := he
    have hlast : ∀ l ∈ m.val.getLast?, l.IsPlain :=
      fun l hl => m.property l (List.mem_of_getLast? hl)
    have hfound := HeaderSpelling.methodName?_code hquiet (some e) m.val rfl
      (by simp [header, HeaderSpelling.names]) name.property (fun l hl => (hlast l hl).namesOperator_eq_false)
      (fun l hl => by rw [(hlast l hl).ident]; decide) (Or.inr ⟨e, rfl, hkind, hname⟩)
    have hconstructor : ((some e).any fun e => e.name = name.val.text) = true := decide_eq_true hname
    rw [read_parameters hquiet rfl hheader (by rw [hending]; exact HeaderEnd.noConfusion) rfl,
      asMethod_eq _ rest hfound, hconstructor, declared, hcode]
    rfl
  | property s m head accessors value =>
    rw [read_property hquiet rfl hheader rfl (Or.inl hending)]
    cases value with
    | none =>
      rw [asProperty_eq (property s m head accessors none) hrest rfl (front_ne_nil m head)
        head.name.property (code_eq_front m head)]
      rfl
    | some e =>
      rw [asProperty_value_eq]
      rfl
  | arrowProperty s m head e =>
    rw [read_property hquiet rfl hheader rfl (Or.inr hending),
      asProperty_eq (arrowProperty s m head e) hrest rfl (front_ne_nil m head) head.name.property
        (code_eq_front m head)]
    rfl
  | delegate s m head parameters =>
    -- the word that tells the delegate is one more token before the type
    have hname := methodName?_typed enclosing hquiet (m.val ++ [.word "delegate"]) head rfl
      (by simp [header, HeaderSpelling.names])
    rw [read_delegate hquiet rfl hheader (by rw [hending]; exact HeaderEnd.noConfusion), hname, hlength,
      declared, hcode]
    rfl
  | field s m head value =>
    have hfield : (field s m head value).ending.headerEnd = .semicolon ∨
        (field s m head value).ending.headerEnd = .assign := by
      cases value with
      | none => exact Or.inl rfl
      | some e => exact Or.inr rfl
    rw [read_field hquiet rfl hheader rfl (by rw [hending]; exact hfield), hlength, declared, hcode]
    rfl
  | event s m head =>
    rw [read_event hquiet rfl hheader, hlength, declared, hcode]
    rfl

end LeafMember

/-! ## Namespaces and types -/

namespace BlockHeader

theorem quiet_dottedName (q : DottedName) : Quiet q.code := by
  have hmore : ∀ more : List Code, (∀ x ∈ more, x.IsPlain) →
      Quiet (more.flatMap fun x => [.dot, x]) := by
    intro more hplain
    induction more with
    | nil => exact .nil
    | cons x more ih =>
      obtain ⟨hx, hrest⟩ := List.forall_mem_cons.mp hplain
      exact .token .dot _ rfl (fun h => absurd h (by decide)) (.plain hx (ih hrest))
  obtain ⟨hfirst, hplain⟩ := List.forall_mem_cons.mp q.plain
  exact .plain hfirst (hmore q.more hplain)

theorem isQuiet_header (b : BlockHeader) : b.header.IsQuiet := by
  cases b with
  | «namespace» s q => exact ⟨.nil, by rintro _ ⟨⟩; rfl, quiet_dottedName q, by simp [header]⟩
  | type s m word name =>
    refine ⟨.of_forall_isPlain m.property, ?_, .plain name.property.toIsPlain .nil, by simp [header]⟩
    rintro _ ⟨⟩
    cases word <;> rfl

theorem head?_kind_header (b : BlockHeader) : b.header.code.head?.map Code.kind = some .ident := by
  refine head?_kind_append ?_ _
  cases b with
  | «namespace» s q => rfl
  | type s m word name => exact LeafMember.head?_kind_modifiers m (by cases word <;> rfl)

theorem split_code (b : BlockHeader) (rest : List Code) :
    Member.split (b.code ++ .curlyOpen :: rest) =
      ⟨b.sections.code.length, b.header.code, .block, .curlyOpen :: rest⟩ := by
  rw [code, List.append_assoc]
  exact split_spelled b.sections b.isQuiet_header b.head?_kind_header rfl rest

/-- **The header of a namespace or type opens it.** -/
theorem read_block (b : BlockHeader) (enclosing : Option Enclosing) (rest : List Code) :
    Member.read enclosing (b.code ++ .curlyOpen :: rest) =
      .opening b.kind b.name b.code.length true := by
  have hsplit := split_code b rest
  have hheader : (Member.split (b.code ++ .curlyOpen :: rest)).header = b.header.code := by rw [hsplit]
  have hquiet := isQuiet_header b
  have hlength : b.sections.code.length + b.header.code.length = b.code.length := by
    rw [code, List.length_append]
  cases b with
  | «namespace» s q =>
    rw [read_namespace hquiet rfl hheader, hsplit]
    unfold Member.Parts.asNamespace Member.Parts.headerEnd
    dsimp only
    rw [hlength, show (header («namespace» s q)).behind ++ (header («namespace» s q)).parametersCode =
      q.code from List.append_nil q.code]
    rfl
  | type s m word name =>
    have hname : Header.typeName? ⟨m.val.reverse, word.code, [name.val]⟩ = some name.val.text :=
      typeName?_eq_some name.property (by cases word <;> decide +kernel)
    rw [read_type hquiet rfl (by cases word <;> decide +kernel) (by cases word <;> decide +kernel) hheader
      hname, hsplit]
    have henum : word.code.isWord "enum".toList = false := by cases word <;> decide +kernel
    unfold Member.Parts.asType Member.Parts.headerEnd
    dsimp only
    rw [if_neg (by simp), henum, hlength]
    rfl

end BlockHeader

end Excerpt
