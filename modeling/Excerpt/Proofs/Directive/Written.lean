import Excerpt.Directive.Parse
import Excerpt.Proofs.Text.Trimming
import Mathlib.Data.List.Basic
import Mathlib.Data.List.Forall2

/-!
# Excerpt — directives written and read again

A directive can be written in many ways: with more white space, its parameters in another order or given twice, its
keys in any case. Here it is written in one way, and that is read as the directive again. The directives that some
line is read as are the *legible* ones, and what is written for them gives them back.

* **`Directive.written`** — the line that is written for a directive.
* **`Directive.IsLegible`** — what is known of a directive that was read.
* **`Directive.isLegible_of_parse`**, **`Directive.parse_written_of_isLegible`** — a directive that was read is
  legible, and a legible one is read from its line; so the legible ones are those that some line is read as
  (**`Directive.exists_parse_eq_ok_iff`**).
* **`Directive.parse_written`** — reading, writing and reading again gives what was read.
-/

namespace Excerpt

/-! ## Writing -/

/-- The choice as it stands behind its key. -/
def Choice.written (choice : Choice) : Text :=
  match choice.query with
  | none => choice.name
  | some query => choice.name ++ '?' :: query

namespace Directive

def ParameterKey.written : ParameterKey → Text
  | importer => "importer".toList
  | formatter => "formatter".toList

def writtenParameter (parameter : ParameterKey × Choice) : Text :=
  parameter.1.written ++ ':' :: parameter.2.written

/-- The choices that the directive makes, that of the importer first. -/
def choices (d : Directive) : List (ParameterKey × Choice) :=
  (d.importer.map fun choice => (ParameterKey.importer, choice)).toList ++
    (d.formatter.map fun choice => (ParameterKey.formatter, choice)).toList

/-- The list of parameters with the space in front of it; nothing where there are none. -/
def writtenList : List (ParameterKey × Choice) → Text
  | [] => []
  | parameters => ' ' :: '(' :: [';'].intercalate (parameters.map writtenParameter) ++ [')']

/-- What is written between the markers of the line. -/
def writtenBody (d : Directive) : Text := d.source ++ ' ' :: (d.name ++ writtenList d.choices)

/-- The line that is written for the directive. -/
def written (d : Directive) : Text := beginMarker ++ (d.writtenBody ++ [' '] ++ commentClose)

/-! ## What is known of a directive that was read -/

/-- Whether the character parts parameters or encloses their list. -/
def isListMark (c : Char) : Bool := c = ';' || c = '(' || c = ')'

end Directive

/-- The choice has a name, and perhaps a query, both without white space at their ends and without the characters
that part the choice from others; the name does not go on to a query. -/
structure Choice.IsLegible (choice : Choice) : Prop where
  name_ne_nil : choice.name ≠ []
  name_trimmed : Text.trim choice.name = choice.name
  name_free : ∀ c ∈ choice.name, Directive.isListMark c = false ∧ c ≠ '?'
  query : ∀ q ∈ choice.query, q ≠ [] ∧ Text.trim q = q ∧ ∀ c ∈ q, Directive.isListMark c = false

namespace Directive

/-- The source and the name are there, begin with no white space and hold no space; the name holds no bracket, and
ends with no white space unless a list of parameters is behind it. The choices are legible. -/
structure IsLegible (d : Directive) : Prop where
  source_ne_nil : d.source ≠ []
  source_start : ∀ c ∈ d.source.head?, isWhiteSpace c = false
  source_free : ' ' ∉ d.source
  name_ne_nil : d.name ≠ []
  name_start : ∀ c ∈ d.name.head?, isWhiteSpace c = false
  name_free : ∀ c ∈ d.name, c ≠ ' ' ∧ c ≠ '('
  name_end : d.choices = [] → ∀ c ∈ d.name.getLast?, isWhiteSpace c = false
  choices : ∀ parameter ∈ d.choices, parameter.2.IsLegible

end Directive

/-- The characters of a text one by one. There are finitely many characters, and to try them all takes too long. -/
theorem Text.forall_mem_of_all {p : Char → Prop} [DecidablePred p] {s : Text}
    (h : (s.all fun c => decide (p c)) = true) : ∀ c ∈ s, p c :=
  fun c hc => of_decide_eq_true (List.all_eq_true.mp h c hc)

/-! ## Choices -/

theorem Choice.written_ne_nil {choice : Choice} (h : choice.IsLegible) : choice.written ≠ [] := by
  unfold written
  split
  · exact h.name_ne_nil
  · simp

theorem Choice.trim_written {choice : Choice} (h : choice.IsLegible) :
    Text.trim choice.written = choice.written := by
  unfold written
  split
  · exact h.name_trimmed
  · next query hquery =>
    obtain ⟨hne, htrimmed, -⟩ := h.query query hquery
    exact Text.trim_append_append h.name_trimmed htrimmed h.name_ne_nil hne ['?']

theorem Choice.isListMark_of_mem_written {choice : Choice} (h : choice.IsLegible) {c : Char}
    (hc : c ∈ choice.written) : Directive.isListMark c = false := by
  unfold written at hc
  split at hc
  · exact (h.name_free c hc).1
  · next query hquery =>
    rcases List.mem_append.mp hc with hname | hrest
    · exact (h.name_free c hname).1
    · rcases List.mem_cons.mp hrest with rfl | hmem
      · decide
      · exact (h.query query hquery).2.2 c hmem

namespace Directive

/-- **A legible choice is read from what is written for it.** -/
theorem parseChoice_written (key : Text) {choice : Choice} (h : choice.IsLegible) :
    parseChoice key choice.written = .ok choice := by
  obtain ⟨name, query⟩ := choice
  have hfree : '?' ∉ name := fun hmem => (h.name_free '?' hmem).2 rfl
  have hname : name.isEmpty = false := List.isEmpty_eq_false_iff.mpr h.name_ne_nil
  cases query with
  | none =>
    have hwhole : Text.splitFirst? (· = '?') name = none := Text.splitFirst?_char_eq_none_iff.mpr hfree
    simp [parseChoice, Choice.written, hwhole, hname]
  | some query =>
    -- the name holds no question mark, so the first one is that in front of the query
    obtain ⟨hne, htrimmed, -⟩ := h.query query rfl
    have hcut : Text.splitFirst? (· = '?') (name ++ '?' :: query) = some (name, query) :=
      Text.splitFirst?_char_eq_some_iff.mpr ⟨rfl, hfree⟩
    have hquery : query.isEmpty = false := List.isEmpty_eq_false_iff.mpr hne
    have hnameTrimmed : Text.trim name = name := h.name_trimmed
    simp [parseChoice, Choice.written, hcut, htrimmed, hnameTrimmed, hquery, hname]

/-- **A choice that was read is legible**, where what it was read from holds no mark of the list. -/
theorem isLegible_of_parseChoice {key value : Text} {choice : Choice}
    (h : parseChoice key (Text.trim value) = .ok choice) (hfree : ∀ c ∈ value, isListMark c = false) :
    choice.IsLegible := by
  have hvalue : ∀ c ∈ Text.trim value, isListMark c = false :=
    fun c hc => hfree c ((Text.infix_trim value).subset hc)
  unfold parseChoice at h
  split at h
  · next hwhole =>
    split at h
    · simp at h
    · next hne =>
      obtain rfl := Except.ok.inj h
      refine ⟨by simpa [List.isEmpty_iff] using hne, Text.trim_trim value, ?_, by simp⟩
      intro c hc
      refine ⟨hvalue c hc, ?_⟩
      rintro rfl
      exact Text.splitFirst?_char_eq_none_iff.mp hwhole hc
  · next name query hcut =>
    -- the query may hold further question marks, the name in front of the first one none
    obtain ⟨hparts, hname⟩ := Text.splitFirst?_char_eq_some_iff.mp hcut
    rw [hparts] at hvalue
    dsimp only at h
    split at h
    · simp at h
    · next hquery =>
      split at h
      · simp at h
      · next hne =>
        obtain rfl := Except.ok.inj h
        have hinName := (Text.infix_trim name).subset
        have hinQuery := (Text.infix_trim query).subset
        refine ⟨by simpa [List.isEmpty_iff] using hne, Text.trim_trim name, ?_, ?_⟩
        · intro c hc
          refine ⟨hvalue c (List.mem_append_left _ (hinName hc)), ?_⟩
          rintro rfl
          exact hname (hinName hc)
        · rintro q ⟨⟩
          refine ⟨by simpa [List.isEmpty_iff] using hquery, Text.trim_trim query, ?_⟩
          intro c hc
          exact hvalue c (List.mem_append_right _ (List.mem_cons_of_mem '?' (hinQuery hc)))

/-! ## Parameters -/

theorem ParameterKey.read?_written (key : ParameterKey) : ParameterKey.read? key.written = some key := by
  cases key <;> decide

theorem ParameterKey.trim_written (key : ParameterKey) : Text.trim key.written = key.written := by
  cases key <;> decide

theorem ParameterKey.written_ne_nil (key : ParameterKey) : key.written ≠ [] := by
  cases key <;> decide

theorem ParameterKey.notMark_of_mem_written {key : ParameterKey} :
    ∀ c ∈ key.written, isListMark c = false ∧ c ≠ ':' := by
  apply Text.forall_mem_of_all
  cases key <;> decide

variable {parameter : ParameterKey × Choice}

theorem trim_writtenParameter (h : parameter.2.IsLegible) :
    Text.trim (writtenParameter parameter) = writtenParameter parameter :=
  Text.trim_append_append parameter.1.trim_written (Choice.trim_written h) parameter.1.written_ne_nil
    (Choice.written_ne_nil h) [':']

theorem isListMark_of_mem_writtenParameter (h : parameter.2.IsLegible) {c : Char}
    (hc : c ∈ writtenParameter parameter) : isListMark c = false := by
  rcases List.mem_append.mp hc with hkey | hrest
  · exact (ParameterKey.notMark_of_mem_written c hkey).1
  · rcases List.mem_cons.mp hrest with rfl | hchoice
    · decide
    · exact Choice.isListMark_of_mem_written h hchoice

/-- **A parameter is read from what is written for it.** -/
theorem parseParameter_written (h : parameter.2.IsLegible) :
    parseParameter (writtenParameter parameter) = .ok parameter := by
  obtain ⟨key, choice⟩ := parameter
  have hcut : Text.splitFirst? (· = ':') (key.written ++ ':' :: choice.written) =
      some (key.written, choice.written) := by
    refine Text.splitFirst?_char_eq_some_iff.mpr ⟨rfl, ?_⟩
    exact fun hmem => (ParameterKey.notMark_of_mem_written ':' hmem).2 rfl
  have hkey : key.written.isEmpty = false := List.isEmpty_eq_false_iff.mpr key.written_ne_nil
  simp [parseParameter, writtenParameter, hcut, hkey, key.trim_written, Choice.trim_written h,
    parseChoice_written _ h, key.read?_written]

theorem isLegible_of_parseParameter {s : Text} (h : parseParameter s = .ok parameter)
    (hfree : ∀ c ∈ s, isListMark c = false) : parameter.2.IsLegible := by
  unfold parseParameter at h
  split at h
  · simp at h
  · next key value hcut =>
    obtain ⟨rfl, -⟩ := Text.splitFirst?_char_eq_some_iff.mp hcut
    have hvalue : ∀ c ∈ value, isListMark c = false :=
      fun c hc => hfree c (List.mem_append_right _ (List.mem_cons_of_mem ':' hc))
    split at h
    · simp at h
    · dsimp only at h
      split at h
      · simp at h
      · next choice hchoice =>
        split at h
        · simp at h
        · next which _ =>
          obtain rfl := Except.ok.inj h
          exact isLegible_of_parseChoice hchoice hvalue

/-! ## Lists of parameters -/

theorem choose_source (d : Directive) (parameter : ParameterKey × Choice) :
    (d.choose parameter).source = d.source ∧ (d.choose parameter).name = d.name := by
  obtain ⟨key, choice⟩ := parameter
  cases key <;> exact ⟨rfl, rfl⟩

/-- A choice is put in the place of an earlier one. -/
theorem mem_choices_choose (d : Directive) (parameter other : ParameterKey × Choice) :
    parameter ∈ (d.choose parameter).choices ∧
      (other ∈ (d.choose parameter).choices → other = parameter ∨ other ∈ d.choices) := by
  obtain ⟨key, choice⟩ := parameter
  obtain ⟨source, name, importer, formatter⟩ := d
  cases key <;> simp only [choose, choices, List.mem_append, Option.mem_toList, Option.map_some] <;> grind

/-- **What reading parameters makes of a directive**, by what each of them is read as. Induction on the parameters. -/
theorem choices_of_parseParameters {ss : List Text} {d d' : Directive} (h : parseParameters d ss = .ok d') :
    d'.source = d.source ∧ d'.name = d.name ∧ (ss ≠ [] ∨ d.choices ≠ [] → d'.choices ≠ []) ∧
      ∀ parameter ∈ d'.choices, parameter ∈ d.choices ∨
        ∃ s ∈ ss, parseParameter (Text.trim s) = .ok parameter := by
  induction ss generalizing d with
  | nil =>
    obtain rfl := Except.ok.inj h
    exact ⟨rfl, rfl, by simp, fun _ => Or.inl⟩
  | cons s ss ih =>
    unfold parseParameters at h
    split at h
    · simp at h
    · next parameter hparameter =>
      obtain ⟨hsource, hname, hne, hall⟩ := ih h
      obtain ⟨hsource', hname'⟩ := choose_source d parameter
      have hchosen : (d.choose parameter).choices ≠ [] :=
        List.ne_nil_of_mem (mem_choices_choose d parameter parameter).1
      refine ⟨hsource.trans hsource', hname.trans hname', fun _ => hne (Or.inr hchosen), ?_⟩
      -- a choice that is left was made by this parameter, before it, or by one behind it
      intro other hother
      rcases hall other hother with hearlier | ⟨s', hs', hread⟩
      · rcases (mem_choices_choose d parameter other).2 hearlier with rfl | hbefore
        · exact Or.inr ⟨s, List.mem_cons_self, hparameter⟩
        · exact Or.inl hbefore
      · exact Or.inr ⟨s', List.mem_cons_of_mem s hs', hread⟩

/-- Where no parameter is wrong, what they choose is chosen in turn. -/
theorem parseParameters_of_forall₂ {ss : List Text} {parameters : List (ParameterKey × Choice)} (d : Directive)
    (h : List.Forall₂ (fun s parameter => parseParameter (Text.trim s) = .ok parameter) ss parameters) :
    parseParameters d ss = .ok (parameters.foldl choose d) := by
  induction h generalizing d with
  | nil => rfl
  | @cons s parameter _ _ hfirst _ ih =>
    rw [parseParameters, hfirst]
    exact ih (d.choose parameter)

/-- Written parameters are read in turn. -/
theorem parseParameters_written (d : Directive) {parameters : List (ParameterKey × Choice)}
    (h : ∀ parameter ∈ parameters, parameter.2.IsLegible) :
    parseParameters d (parameters.map writtenParameter) = .ok (parameters.foldl choose d) := by
  refine parseParameters_of_forall₂ d (List.forall₂_map_left_iff.mpr (List.forall₂_same.mpr ?_))
  intro parameter hmem
  rw [trim_writtenParameter (h parameter hmem), parseParameter_written (h parameter hmem)]

/-- The choices of a directive are what makes it out of a plain one. -/
theorem foldl_choose_choices (d : Directive) : d.choices.foldl choose (plain d.source d.name) = d := by
  obtain ⟨source, name, importer, formatter⟩ := d
  cases importer <;> cases formatter <;> rfl

/-- **What is enclosed:** all between the first and the last character, which are brackets. -/
theorem enclosed?_eq_some_iff {s inner : Text} :
    enclosed? s = some inner ↔ s = '(' :: (inner ++ [')']) ∧ ∀ c ∈ inner, c ≠ '(' ∧ c ≠ ')' := by
  constructor
  · intro h
    unfold enclosed? at h
    split at h
    · next rest =>
      split at h
      · next hlast =>
        obtain ⟨front, rfl⟩ := List.getLast?_eq_some_iff.mp hlast
        rw [List.dropLast_concat] at h
        dsimp only at h
        split at h
        · simp at h
        · next hnone =>
          obtain rfl := Option.some.inj h
          exact ⟨rfl, by simpa using hnone⟩
      · simp at h
    · simp at h
  · rintro ⟨rfl, hfree⟩
    have hnone : inner.any (fun c => c = '(' || c = ')') = false := by simpa using hfree
    simp [enclosed?, hnone]

/-! ## The text between the markers -/

theorem isListMark_of_mem_written {parameters : List (ParameterKey × Choice)}
    (h : ∀ parameter ∈ parameters, parameter.2.IsLegible) {s : Text} (hs : s ∈ parameters.map writtenParameter) :
    ∀ c ∈ s, isListMark c = false := by
  obtain ⟨parameter, hparameter, rfl⟩ := List.mem_map.mp hs
  exact fun c hc => isListMark_of_mem_writtenParameter (h parameter hparameter) hc

/-- A list of parameters is enclosed in its brackets, and falls into its parameters. -/
theorem enclosed?_writtenList {parameters : List (ParameterKey × Choice)} (hne : parameters ≠ [])
    (h : ∀ parameter ∈ parameters, parameter.2.IsLegible) :
    ∃ inner, enclosed? (Text.trim (writtenList parameters)) = some inner ∧
      inner.splitOn ';' = parameters.map writtenParameter := by
  have hsemicolon : ∀ s ∈ parameters.map writtenParameter, ';' ∉ s := by
    intro s hs hmem
    exact absurd (isListMark_of_mem_written h hs _ hmem) (by decide)
  refine ⟨[';'].intercalate (parameters.map writtenParameter), enclosed?_eq_some_iff.mpr ⟨?_, ?_⟩,
    List.splitOn_intercalate ';' hsemicolon (mt List.map_eq_nil_iff.mp hne)⟩
  · obtain ⟨parameter, rest, rfl⟩ := List.exists_cons_of_ne_nil hne
    have hspace : Text.isBlank [' '] = true := by decide
    show Text.trim ([' '] ++ ('(' :: ([';'].intercalate _ ++ [')']))) = _
    rw [Text.trim_of_isBlank_append hspace]
    apply Text.trim_eq_self_iff.mpr
    constructor
    · rintro c ⟨⟩
      decide
    · intro c hc
      rw [← List.cons_append, List.getLast?_concat] at hc
      obtain rfl := Option.some.inj hc
      decide
  · -- what is not in a parameter is a semicolon between two of them
    intro c hc
    have hmark : isListMark c = false ∨ c = ';' := by
      rcases Text.mem_intercalate hc with hsep | ⟨s, hs, hcs⟩
      · exact Or.inr (List.mem_singleton.mp hsep)
      · exact Or.inl (isListMark_of_mem_written h hs c hcs)
    constructor
    · rintro rfl
      exact absurd hmark (by decide)
    · rintro rfl
      exact absurd hmark (by decide)

theorem trim_writtenBody {d : Directive} (h : d.IsLegible) : Text.trim d.writtenBody = d.writtenBody := by
  apply Text.trim_eq_self_iff.mpr
  constructor
  · show ∀ c ∈ (d.source ++ _).head?, _
    obtain ⟨c, source, hsource⟩ := List.exists_cons_of_ne_nil h.source_ne_nil
    rw [hsource]
    exact fun c' hc' => h.source_start c' (by rwa [hsource])
  · -- the list of parameters ends with its bracket; without one the name is at the end
    show ∀ c ∈ (d.source ++ ' ' :: (d.name ++ writtenList d.choices)).getLast?, _
    have hback : d.name ++ writtenList d.choices ≠ [] := List.append_ne_nil_of_left_ne_nil h.name_ne_nil _
    rw [List.getLast?_append, Option.or_of_isSome (by simp), List.getLast?_cons_of_ne_nil hback]
    cases hchoices : d.choices with
    | nil => simpa [writtenList] using h.name_end hchoices
    | cons parameter rest =>
      intro c hc
      simp only [writtenList, ← List.append_assoc, List.getLast?_concat] at hc
      obtain rfl := Option.some.inj hc
      decide

theorem splitSource_writtenBody {d : Directive} (h : d.IsLegible) :
    splitSource d.writtenBody = (d.source, d.name ++ writtenList d.choices) := by
  unfold splitSource writtenBody
  rw [Text.splitFirst?_char_eq_some_iff.mpr ⟨rfl, h.source_free⟩]
  rfl

theorem splitName_writtenBody {d : Directive} (h : d.IsLegible) :
    splitName (Text.trimStart (d.name ++ writtenList d.choices)) =
      (d.name, Text.trim (writtenList d.choices)) := by
  obtain ⟨b, name, hname⟩ := List.exists_cons_of_ne_nil h.name_ne_nil
  have hstart : Text.trimStart (d.name ++ writtenList d.choices) = d.name ++ writtenList d.choices := by
    have hb : isWhiteSpace b = false := h.name_start b (by rw [hname]; rfl)
    rw [hname]
    exact List.dropWhile_cons_of_neg (by rw [hb]; decide)
  have hin : ∀ c ∈ d.name, (! (c = ' ' || c = '(')) = true := by
    intro c hc
    simpa using h.name_free c hc
  have hstop : ∀ c ∈ (writtenList d.choices).head?, (! (c = ' ' || c = '(')) = false := by
    cases d.choices with
    | nil => simp [writtenList]
    | cons parameter rest => simp [writtenList]
  obtain ⟨hfront, hback⟩ := Text.span_append hin hstop
  rw [hstart]
  exact Prod.ext hfront (congrArg Text.trim hback)

/-- **A legible directive is read from what is written between the markers.** -/
theorem parseBody_writtenBody {d : Directive} (h : d.IsLegible) : parseBody d.writtenBody = .ok d := by
  have hname : d.name.isEmpty = false := List.isEmpty_eq_false_iff.mpr h.name_ne_nil
  simp only [parseBody, splitSource_writtenBody h, splitName_writtenBody h, hname, Bool.false_eq_true, if_false]
  cases hchoices : d.choices with
  | nil =>
    -- nothing is behind the name, and the directive is the plain one
    have hplain := foldl_choose_choices d
    rw [hchoices] at hplain
    simpa [writtenList, Text.trim, Text.trimStart, Text.trimEnd, Text.dropEndWhile] using hplain
  | cons parameter rest =>
    have hlegible := h.choices
    rw [hchoices] at hlegible
    obtain ⟨inner, hinner, hparts⟩ := enclosed?_writtenList (List.cons_ne_nil parameter rest) hlegible
    have hsome : (Text.trim (writtenList (parameter :: rest))).isEmpty = false := by
      rw [(enclosed?_eq_some_iff.mp hinner).1]
      rfl
    rw [hsome, hinner, if_neg Bool.false_ne_true]
    dsimp only
    rw [hparts, parseParameters_written _ hlegible, ← hchoices, foldl_choose_choices]

/-! ## The markers around it -/

/-- A closing is dropped from the end of what it closes. -/
theorem dropClosing?_append (s : Text) : dropClosing? (s ++ commentClose) = some s := by
  have hend : commentClose.reverse.isPrefixOf? (s ++ commentClose).reverse = some s.reverse := by
    rw [List.isPrefixOf?_eq_some_iff_append_eq, List.reverse_append]
  rw [dropClosing?, hend, Option.map_some, List.reverse_reverse]

/-- **A legible directive is read from the line that is written for it.** -/
theorem parse_written_of_isLegible {d : Directive} (h : d.IsLegible) : parse d.written = .ok d := by
  have hspace : Text.isBlank [' '] = true := by decide
  have hcut : ∃ after, Text.splitFirst? (· = ' ') (d.writtenBody ++ [' '] ++ commentClose) =
      some (d.source, after) := by
    refine ⟨d.name ++ writtenList d.choices ++ [' '] ++ commentClose, Text.splitFirst?_char_eq_some_iff.mpr ?_⟩
    exact ⟨by simp [writtenBody], h.source_free⟩
  obtain ⟨after, hafter⟩ := hcut
  have hsource : d.source.isEmpty = false := List.isEmpty_eq_false_iff.mpr h.source_ne_nil
  unfold parse written
  rw [Text.dropPrefixIgnoreCase?_append]
  dsimp only
  rw [dropClosing?_append, hafter]
  dsimp only
  rw [hsource, if_neg Bool.false_ne_true, Text.trim_append_of_isBlank hspace, trim_writtenBody h]
  exact parseBody_writtenBody h

/-! ## Directives that were read -/

/-- The name is the text up to a space or a bracket, and what is behind it is trimmed. -/
theorem exists_of_splitName {s name back : Text} (h : splitName s = (name, back)) :
    (∀ c ∈ name, c ≠ ' ' ∧ c ≠ '(') ∧ ∃ rest, s = name ++ rest ∧ back = Text.trim rest := by
  obtain ⟨rfl, rfl⟩ := Prod.mk.inj h
  constructor
  · intro c hc
    simpa using List.mem_takeWhile_imp hc
  · exact ⟨_, List.takeWhile_append_dropWhile.symm, rfl⟩

/-- **What is read from a list of parameters:** a choice at least, and legible ones only. -/
theorem choices_of_parameters {d d' : Directive} (hplain : d.choices = []) {back inner : Text}
    (hinner : enclosed? back = some inner) (h : parseParameters d (inner.splitOn ';') = .ok d') :
    d'.source = d.source ∧ d'.name = d.name ∧ d'.choices ≠ [] ∧
      ∀ parameter ∈ d'.choices, parameter.2.IsLegible := by
  obtain ⟨hsource, hname, hne, hall⟩ := choices_of_parseParameters h
  refine ⟨hsource, hname, hne (Or.inl (List.splitOn_ne_nil ';' inner)), ?_⟩
  intro parameter hparameter
  rcases hall parameter hparameter with hbefore | ⟨s, hs, hread⟩
  · rw [hplain] at hbefore
    cases hbefore
  · refine isLegible_of_parseParameter hread ?_
    -- the pieces hold no semicolon, and the list that they come from holds no bracket
    intro c hc
    have hmem : c ∈ s := (Text.infix_trim s).subset hc
    have hbracket := (enclosed?_eq_some_iff.mp hinner).2 c ((Text.infix_of_mem_splitOn hs).subset hmem)
    have hsemicolon : c ≠ ';' := fun heq => Text.not_mem_of_mem_splitOn hs (heq ▸ hmem)
    simp [isListMark, hbracket, hsemicolon]

/-- What stands in front of a space in trimmed text is there, and begins with no white space. -/
theorem source_of_trimmed {source after : Text} (h : Text.trim (source ++ ' ' :: after) = source ++ ' ' :: after) :
    source ≠ [] ∧ ∀ c ∈ source.head?, isWhiteSpace c = false := by
  have hhead := (Text.trim_eq_self_iff.mp h).1
  constructor
  · rintro rfl
    exact absurd (hhead ' ' rfl) (by decide)
  · intro c hc
    apply hhead c
    rw [List.head?_append, Option.mem_def.mp hc, Option.some_or]
    exact Option.mem_some_self c

/-- Trimmed text ends with the name where only white space could be behind it. -/
theorem name_end_of_trimmed {source after name rest : Text}
    (h : Text.trim (source ++ ' ' :: after) = source ++ ' ' :: after)
    (hparts : Text.trimStart after = name ++ rest) (hrest : Text.trim rest = []) :
    ∀ c ∈ name.getLast?, isWhiteSpace c = false := by
  have hwhole : source ++ ' ' :: after = (source ++ ' ' :: after.takeWhile isWhiteSpace ++ name) ++ rest := by
    rw [List.append_assoc, ← hparts, List.append_assoc, List.cons_append, Text.trimStart,
      List.takeWhile_append_dropWhile]
  rw [hwhole] at h
  have hnil : rest = [] := Text.eq_nil_of_trim_append h (Text.isBlank_of_trim_eq_nil hrest)
  rw [hnil, List.append_nil] at h
  intro c hc
  apply (Text.trim_eq_self_iff.mp h).2 c
  rw [List.getLast?_append, Option.mem_def.mp hc, Option.some_or]
  exact Option.mem_some_self c

/-- **A directive read from trimmed text is legible.** -/
theorem isLegible_of_parseBody {s : Text} {d : Directive} (hs : Text.trim s = s) (h : parseBody s = .ok d) :
    d.IsLegible := by
  cases hcut : Text.splitFirst? (· = ' ') s with
  | none =>
    -- nothing is behind the source, and the name is missing
    simp [parseBody, splitSource, splitName, hcut, Text.trimStart] at h
  | some parts =>
    obtain ⟨source, after⟩ := parts
    obtain ⟨rfl, hsourceFree⟩ := Text.splitFirst?_char_eq_some_iff.mp hcut
    -- what is behind the source is white space, the name, and what may be a list of parameters
    obtain ⟨⟨name, back⟩, hname⟩ : ∃ parts, splitName (Text.trimStart after) = parts := ⟨_, rfl⟩
    obtain ⟨hnameFree, rest, hparts, hback⟩ := exists_of_splitName hname
    obtain ⟨hsource, hsourceStart⟩ := source_of_trimmed hs
    have hnameStart : ∀ c ∈ name.head?, isWhiteSpace c = false := by
      intro c hc
      apply Text.head?_trimStart
      rw [hparts, List.head?_append, Option.mem_def.mp hc, Option.some_or]
    simp only [parseBody, splitSource, hcut, Option.getD_some, hname, List.isEmpty_iff] at h
    split at h
    · simp at h
    · next hnameSome =>
      split at h
      · next hnothing =>
        obtain rfl := Except.ok.inj h
        have hend := name_end_of_trimmed hs hparts (hback ▸ hnothing)
        exact ⟨hsource, hsourceStart, hsourceFree, hnameSome, hnameStart, hnameFree, fun _ => hend,
          by simp [choices, plain]⟩
      · split at h
        · simp at h
        · next inner hinner =>
          obtain ⟨hsource', hname', hne, hall⟩ := choices_of_parameters rfl hinner h
          obtain ⟨source', name', importer, formatter⟩ := d
          obtain ⟨rfl, rfl⟩ : source' = source ∧ name' = name := ⟨hsource', hname'⟩
          exact ⟨hsource, hsourceStart, hsourceFree, hnameSome, hnameStart, hnameFree,
            fun hnil => absurd hnil hne, hall⟩

/-- **A directive that was read is legible.** -/
theorem isLegible_of_parse {line : Text} {d : Directive} (h : parse line = .ok d) : d.IsLegible := by
  unfold parse at h
  split at h
  · simp at h
  · split at h
    · simp at h
    · next body _ =>
      split at h
      · simp at h
      · split at h
        · simp at h
        · exact isLegible_of_parseBody (Text.trim_trim body) h

/-- **The directives that some line is read as** are the legible ones. -/
theorem exists_parse_eq_ok_iff (d : Directive) : (∃ line, parse line = .ok d) ↔ d.IsLegible := by
  constructor
  · rintro ⟨line, hline⟩
    exact isLegible_of_parse hline
  · intro h
    exact ⟨d.written, parse_written_of_isLegible h⟩

/-! ## Reading, writing and reading again -/

/-- The source and the name are words without white space and without an opening bracket, and the choices are
legible. -/
structure IsPlain (d : Directive) : Prop where
  source_ne_nil : d.source ≠ []
  source_free : ∀ c ∈ d.source, isWhiteSpace c = false ∧ c ≠ '('
  name_ne_nil : d.name ≠ []
  name_free : ∀ c ∈ d.name, isWhiteSpace c = false ∧ c ≠ '('
  importer : ∀ choice ∈ d.importer, choice.IsLegible
  formatter : ∀ choice ∈ d.formatter, choice.IsLegible

theorem IsPlain.isLegible {d : Directive} (h : d.IsPlain) : d.IsLegible where
  source_ne_nil := h.source_ne_nil
  source_start c hc := (h.source_free c (List.mem_of_head? hc)).1
  source_free hmem := absurd (h.source_free ' ' hmem).1 (by decide)
  name_ne_nil := h.name_ne_nil
  name_start c hc := (h.name_free c (List.mem_of_head? hc)).1
  name_free c hc := by
    obtain ⟨hwhite, hbracket⟩ := h.name_free c hc
    refine ⟨?_, hbracket⟩
    rintro rfl
    exact absurd hwhite (by decide)
  name_end _ c hc := (h.name_free c (List.mem_of_getLast? hc)).1
  choices := by
    intro parameter hparameter
    rcases List.mem_append.mp hparameter with himporter | hformatter
    · obtain ⟨choice, hchoice, rfl⟩ := Option.map_eq_some_iff.mp (Option.mem_toList.mp himporter)
      exact h.importer choice hchoice
    · obtain ⟨choice, hchoice, rfl⟩ := Option.map_eq_some_iff.mp (Option.mem_toList.mp hformatter)
      exact h.formatter choice hchoice

/-- **What is written for a directive is read as the directive**, whatever line it was read from; and so it is for
every plain directive. -/
theorem parse_written (d : Directive) :
    (∀ line, parse line = .ok d → parse d.written = .ok d) ∧ (d.IsPlain → parse d.written = .ok d) := by
  constructor
  · intro line hline
    exact parse_written_of_isLegible (isLegible_of_parse hline)
  · intro hplain
    exact parse_written_of_isLegible hplain.isLegible

/-- A line with more white space than it needs, keys in another case, the importer last and the formatter twice. -/
theorem parse_written_untidyLine :
    let line := "<!-- Begin-Snippet: Foo.cs  Bar( FORMATTER:x;formatter : raw;Importer:cs ? body-only=true )-->".toList
    let d : Directive := ⟨"Foo.cs".toList, "Bar".toList, some ⟨"cs".toList, some "body-only=true".toList⟩,
      some ⟨"raw".toList, none⟩⟩
    (parse line = .ok d ∧ parse d.written = .ok d) ∧ d.IsPlain ∧ parse d.written = .ok d := by
  intro line d
  have hread : parse line = .ok d := by decide +kernel
  have hplain : d.IsPlain := by
    refine ⟨by decide, Text.forall_mem_of_all (by decide), by decide, Text.forall_mem_of_all (by decide), ?_, ?_⟩
    · rintro choice ⟨⟩
      refine ⟨by decide, by decide, Text.forall_mem_of_all (by decide), ?_⟩
      rintro query ⟨⟩
      exact ⟨by decide, by decide, Text.forall_mem_of_all (by decide)⟩
    · rintro choice ⟨⟩
      exact ⟨by decide, by decide, Text.forall_mem_of_all (by decide), by rintro query ⟨⟩⟩
  exact ⟨⟨hread, (parse_written d).1 line hread⟩, hplain, (parse_written d).2 hplain⟩

/-- What is written leaves out what is not there. -/
example :
    written ⟨"Foo.cs".toList, "Bar".toList, none, some ⟨"raw".toList, none⟩⟩ =
        "<!-- begin-snippet: Foo.cs Bar (formatter:raw) -->".toList ∧
      written (plain "Foo.cs".toList "Bar".toList) = "<!-- begin-snippet: Foo.cs Bar -->".toList := by
  decide +kernel

end Directive

end Excerpt
