import Excerpt.Proofs.Directive.Written
import Mathlib.Data.List.Induction

/-!
# Excerpt — the first rule that a line breaks

A line is a directive where it keeps a list of rules, which are tried in one order: its markers, its source and its
name, the brackets of its parameters, and then one parameter after the other. The first rule that it breaks is the error
that its author sees. The rules speak of the parts of the line, as what stands before and behind a mark, and not of how
these are found.

* **`Directive.IsCut`** — the trimmed text between the markers with its parts.
* **`Directive.ParameterDecides`**, **`Directive.ListDecides`** — the rules for a parameter, and for all of them in turn.
* **`Directive.Decides`** — the rules for a line, with what it is read as where it keeps them.
* **`Directive.parseParameter_eq_iff`**, **`Directive.parse_eq_iff`** — what is read is what the rules decide.
-/

namespace Excerpt.Directive

/-! ## The rules -/

/-- The line opens with the begin marker, in any case, and goes on with `rest`. -/
def Opens (line rest : Text) : Prop := ∃ head, line = head ++ rest ∧ Text.eqIgnoreCase head beginMarker = true

/-- The text holds a space, and does not begin with one. -/
def HasSource (rest : Text) : Prop := ' ' ∈ rest ∧ rest.head? ≠ some ' '

/-- The markers of the line enclose the text, in front of which stands a source. -/
structure IsFramed (line body : Text) : Prop where
  opens : Opens line (body ++ commentClose)
  hasSource : HasSource (body ++ commentClose)

/-- The text is a source up to the first space, a name that goes from the next character that is no white space to a
space or an opening bracket, and what stands behind it. Without a space it is all source. -/
inductive IsCut : (s source name back : Text) → Prop where
  | whole {source : Text} (hsource : ' ' ∉ source) : IsCut source source [] []
  | parts {source blank name back : Text} (hsource : ' ' ∉ source) (hblank : Text.isBlank blank = true)
      (hstart : ∀ c ∈ (name ++ back).head?, isWhiteSpace c = false) (hname : ∀ c ∈ name, c ≠ ' ' ∧ c ≠ '(')
      (hback : ∀ c ∈ back.head?, c = ' ' ∨ c = '(') : IsCut (source ++ ' ' :: (blank ++ (name ++ back))) source name back

/-- The text is one pair of round brackets around `inner`, which holds no further one. -/
def IsEnclosed (s inner : Text) : Prop := s = '(' :: (inner ++ [')']) ∧ ∀ c ∈ inner, c ≠ '(' ∧ c ≠ ')'

/-- The first colon of the parameter stands between a key, which is not empty, and a value. -/
structure IsKeyed (s key value : Text) : Prop where
  parts : s = key ++ ':' :: value
  first : ':' ∉ key
  key_ne_nil : key ≠ []

/-- The value is a name, or a name and a query with the first question mark between them. -/
inductive IsChoice : (value name : Text) → (query : Option Text) → Prop where
  | plain {name : Text} (hname : '?' ∉ name) : IsChoice name name none
  | queried {name query : Text} (hname : '?' ∉ name) :
      IsChoice (name ++ '?' :: query) (Text.trim name) (some (Text.trim query))

/-- What a parameter is decided by: the first of its rules that it breaks, or what it chooses where it breaks none. -/
inductive ParameterDecides (s : Text) : Except DirectiveError (ParameterKey × Choice) → Prop where
  | malformed (h : ∀ key value, ¬ IsKeyed s key value) : ParameterDecides s (.error .malformedParameter)
  | missingQuery {key value name : Text} (hkey : IsKeyed s key value)
      (hchoice : IsChoice (Text.trim value) name (some [])) :
      ParameterDecides s (.error (.missingQuery (Text.trim key)))
  | missingValue {key value : Text} {query : Option Text} (hkey : IsKeyed s key value)
      (hchoice : IsChoice (Text.trim value) [] query) (hquery : query ≠ some []) :
      ParameterDecides s (.error (.missingValue (Text.trim key)))
  | unknownKey {key value name : Text} {query : Option Text} (hkey : IsKeyed s key value)
      (hchoice : IsChoice (Text.trim value) name query) (hquery : query ≠ some []) (hname : name ≠ [])
      (hunknown : ∀ which : ParameterKey, Text.eqIgnoreCase (Text.trim key) which.written = false) :
      ParameterDecides s (.error (.unknownKey (Text.trim key)))
  | chooses {key value name : Text} {query : Option Text} {which : ParameterKey} (hkey : IsKeyed s key value)
      (hchoice : IsChoice (Text.trim value) name query) (hquery : query ≠ some []) (hname : name ≠ [])
      (hwhich : Text.eqIgnoreCase (Text.trim key) which.written = true) :
      ParameterDecides s (.ok (which, ⟨name, query⟩))

/-- What a list of parameters is decided by: the first of them that breaks a rule, or what they choose in turn. -/
inductive ListDecides : List Text → Except DirectiveError (List (ParameterKey × Choice)) → Prop where
  | wrong {before after : List Text} {s : Text} {e : DirectiveError}
      (hbefore : ∀ r ∈ before, ∃ parameter, ParameterDecides (Text.trim r) (.ok parameter))
      (hwrong : ParameterDecides (Text.trim s) (.error e)) : ListDecides (before ++ s :: after) (.error e)
  | choose {ss : List Text} {parameters : List (ParameterKey × Choice)}
      (hall : List.Forall₂ (fun s parameter => ParameterDecides (Text.trim s) (.ok parameter)) ss parameters) :
      ListDecides ss (.ok parameters)

/-- The last choice for a key. -/
def lastChoice (which : ParameterKey) (parameters : List (ParameterKey × Choice)) : Option Choice :=
  (parameters.filter (·.1 = which)).getLast?.map Prod.snd

/-- What a line is decided by: the first of the rules that it breaks, or the directive that it is read as. -/
inductive Decides (line : Text) : Except DirectiveError Directive → Prop where
  | missingOpening (h : ∀ rest, ¬ Opens line rest) : Decides line (.error .missingOpening)
  | missingClosing {rest : Text} (hopens : Opens line rest) (h : ¬ commentClose <:+ rest) :
      Decides line (.error .missingClosing)
  | missingSource {body : Text} (hopens : Opens line (body ++ commentClose)) (h : ¬ HasSource (body ++ commentClose)) :
      Decides line (.error .missingSource)
  | missingName {body source back : Text} (hframed : IsFramed line body)
      (hcut : IsCut (Text.trim body) source [] back) : Decides line (.error .missingName)
  | parametersNotEnclosed {body source name back : Text} (hframed : IsFramed line body)
      (hcut : IsCut (Text.trim body) source name back) (hname : name ≠ []) (hback : Text.trim back ≠ [])
      (h : ∀ inner, ¬ IsEnclosed (Text.trim back) inner) : Decides line (.error .parametersNotEnclosed)
  | wrongParameter {body source name back inner : Text} {e : DirectiveError} (hframed : IsFramed line body)
      (hcut : IsCut (Text.trim body) source name back) (hname : name ≠ []) (hinner : IsEnclosed (Text.trim back) inner)
      (hlist : ListDecides (inner.splitOn ';') (.error e)) : Decides line (.error e)
  | plain {body source name back : Text} (hframed : IsFramed line body)
      (hcut : IsCut (Text.trim body) source name back) (hname : name ≠ []) (hback : Text.trim back = []) :
      Decides line (.ok (plain source name))
  | choosing {body source name back inner : Text} {parameters : List (ParameterKey × Choice)}
      (hframed : IsFramed line body) (hcut : IsCut (Text.trim body) source name back) (hname : name ≠ [])
      (hinner : IsEnclosed (Text.trim back) inner) (hlist : ListDecides (inner.splitOn ';') (.ok parameters)) :
      Decides line (.ok ⟨source, name, lastChoice .importer parameters, lastChoice .formatter parameters⟩)

/-! ## Parameters -/

theorem isKeyed_iff {s key value : Text} :
    IsKeyed s key value ↔ Text.splitFirst? (· = ':') s = some (key, value) ∧ key ≠ [] := by
  rw [Text.splitFirst?_char_eq_some_iff]
  constructor
  · rintro ⟨hparts, hfirst, hne⟩
    exact ⟨⟨hparts, hfirst⟩, hne⟩
  · rintro ⟨⟨hparts, hfirst⟩, hne⟩
    exact ⟨hparts, hfirst, hne⟩

/-- Every value is a choice. -/
theorem exists_isChoice (value : Text) : ∃ name query, IsChoice value name query := by
  cases hcut : Text.splitFirst? (· = '?') value with
  | none => exact ⟨value, none, .plain (Text.splitFirst?_char_eq_none_iff.mp hcut)⟩
  | some parts =>
    obtain ⟨rfl, hname⟩ := Text.splitFirst?_char_eq_some_iff.mp hcut
    exact ⟨_, _, .queried hname⟩

/-- **What a choice is read as:** the query is looked at before the name. -/
theorem parseChoice_of_isChoice (key : Text) {value name : Text} {query : Option Text} (h : IsChoice value name query) :
    parseChoice key value =
      if query = some [] then .error (.missingQuery key)
      else if name = [] then .error (.missingValue key)
      else .ok ⟨name, query⟩ := by
  cases h with
  | plain hname => simp [parseChoice, Text.splitFirst?_char_eq_none_iff.mpr hname]
  | @queried front back hname =>
    have hcut : Text.splitFirst? (· = '?') (front ++ '?' :: back) = some (front, back) :=
      Text.splitFirst?_char_eq_some_iff.mpr ⟨rfl, hname⟩
    simp [parseChoice, hcut]

theorem ParameterKey.read?_eq_some_iff {s : Text} {which : ParameterKey} :
    ParameterKey.read? s = some which ↔ Text.eqIgnoreCase s which.written = true := by
  -- no text is both of the keys
  have hne : Text.lower "importer".toList ≠ Text.lower "formatter".toList := by decide +kernel
  have hboth : ¬ (Text.eqIgnoreCase s "importer".toList = true ∧ Text.eqIgnoreCase s "formatter".toList = true) := by
    rintro ⟨himporter, hformatter⟩
    unfold Text.eqIgnoreCase at himporter hformatter
    exact hne ((eq_of_beq himporter).symm.trans (eq_of_beq hformatter))
  unfold read?
  split
  · next himporter =>
    cases which with
    | importer => exact iff_of_true rfl himporter
    | formatter => exact iff_of_false nofun fun hformatter => hboth ⟨himporter, hformatter⟩
  · next himporter =>
    split
    · next hformatter =>
      cases which with
      | importer => exact iff_of_false nofun himporter
      | formatter => exact iff_of_true rfl hformatter
    · next hformatter =>
      cases which with
      | importer => exact iff_of_false nofun himporter
      | formatter => exact iff_of_false nofun hformatter

theorem ParameterKey.read?_eq_none_iff {s : Text} :
    ParameterKey.read? s = none ↔ ∀ which : ParameterKey, Text.eqIgnoreCase s which.written = false := by
  constructor
  · intro h which
    refine Bool.eq_false_iff.mpr fun hwhich => ?_
    rw [ParameterKey.read?_eq_some_iff.mpr hwhich] at h
    cases h
  · intro h
    refine Option.eq_none_iff_forall_ne_some.mpr fun which hwhich => ?_
    rw [ParameterKey.read?_eq_some_iff, h which] at hwhich
    cases hwhich

/-- **What a parameter is read as**, where a key and a value are told apart. -/
theorem parseParameter_of_isKeyed {s key value name : Text} {query : Option Text} (hkey : IsKeyed s key value)
    (hchoice : IsChoice (Text.trim value) name query) :
    parseParameter s =
      if query = some [] then .error (.missingQuery (Text.trim key))
      else if name = [] then .error (.missingValue (Text.trim key))
      else
        (ParameterKey.read? (Text.trim key)).elim (.error (.unknownKey (Text.trim key))) fun which =>
          .ok (which, ⟨name, query⟩) := by
  obtain ⟨hcut, hne⟩ := isKeyed_iff.mp hkey
  have hkey' : key.isEmpty = false := List.isEmpty_eq_false_iff.mpr hne
  have hvalue := parseChoice_of_isChoice (Text.trim key) hchoice
  by_cases hquery : query = some []
  · simp [parseParameter, hcut, hkey', hvalue, hquery]
  · by_cases hname : name = []
    · simp [parseParameter, hcut, hkey', hvalue, hquery, hname]
    · cases hread : ParameterKey.read? (Text.trim key) <;>
        simp [parseParameter, hcut, hkey', hvalue, hquery, hname, hread]

theorem parseParameter_of_not_isKeyed {s : Text} (h : ∀ key value, ¬ IsKeyed s key value) :
    parseParameter s = .error .malformedParameter := by
  unfold parseParameter
  split
  · rfl
  · next key value hcut =>
    by_cases hkey : key = []
    · rw [hkey]
      rfl
    · exact absurd (isKeyed_iff.mpr ⟨hcut, hkey⟩) (h key value)

theorem parameterDecides_parseParameter (s : Text) : ParameterDecides s (parseParameter s) := by
  by_cases hkeyed : ∃ key value, IsKeyed s key value
  · obtain ⟨key, value, hkey⟩ := hkeyed
    obtain ⟨name, query, hchoice⟩ := exists_isChoice (Text.trim value)
    rw [parseParameter_of_isKeyed hkey hchoice]
    split
    · next hquery => exact .missingQuery hkey (hquery ▸ hchoice)
    · next hquery =>
      split
      · next hname => exact .missingValue hkey (hname ▸ hchoice) hquery
      · next hname =>
        cases hread : ParameterKey.read? (Text.trim key) with
        | none => exact .unknownKey hkey hchoice hquery hname (ParameterKey.read?_eq_none_iff.mp hread)
        | some which => exact .chooses hkey hchoice hquery hname (ParameterKey.read?_eq_some_iff.mp hread)
  · simp only [not_exists] at hkeyed
    rw [parseParameter_of_not_isKeyed hkeyed]
    exact .malformed hkeyed

/-- **What a parameter is read as is what its rules decide.** -/
theorem parseParameter_eq_iff {s : Text} {answer : Except DirectiveError (ParameterKey × Choice)} :
    parseParameter s = answer ↔ ParameterDecides s answer := by
  constructor
  · rintro rfl
    exact parameterDecides_parseParameter s
  · intro h
    cases h with
    | malformed h => exact parseParameter_of_not_isKeyed h
    | missingQuery hkey hchoice => rw [parseParameter_of_isKeyed hkey hchoice, if_pos rfl]
    | missingValue hkey hchoice hquery => rw [parseParameter_of_isKeyed hkey hchoice, if_neg hquery, if_pos rfl]
    | unknownKey hkey hchoice hquery hname hunknown =>
      rw [parseParameter_of_isKeyed hkey hchoice, if_neg hquery, if_neg hname,
        ParameterKey.read?_eq_none_iff.mpr hunknown, Option.elim_none]
    | chooses hkey hchoice hquery hname hwhich =>
      rw [parseParameter_of_isKeyed hkey hchoice, if_neg hquery, if_neg hname,
        ParameterKey.read?_eq_some_iff.mpr hwhich, Option.elim_some]

/-! ## Lists of parameters -/

/-- The first parameter that is wrong decides. -/
theorem parseParameters_wrong {before : List Text} {s : Text} {e : DirectiveError} (d : Directive)
    (hbefore : ∀ r ∈ before, ∃ parameter, parseParameter (Text.trim r) = .ok parameter)
    (hwrong : parseParameter (Text.trim s) = .error e) (after : List Text) :
    parseParameters d (before ++ s :: after) = .error e := by
  induction before generalizing d with
  | nil => rw [List.nil_append, parseParameters, hwrong]
  | cons r before ih =>
    obtain ⟨parameter, hread⟩ := hbefore r List.mem_cons_self
    rw [List.cons_append, parseParameters, hread]
    exact ih (d.choose parameter) fun r' hr' => hbefore r' (List.mem_cons_of_mem r hr')

theorem lastChoice_append (which : ParameterKey) (parameters : List (ParameterKey × Choice)) (other : ParameterKey × Choice) :
    lastChoice which (parameters ++ [other]) = if other.1 = which then some other.2 else lastChoice which parameters := by
  unfold lastChoice
  rw [List.filter_append]
  split
  · next h => simp [h]
  · next h => simp [h]

/-- **The last choice for each key is the one that stands** when all have been made in turn. Induction from the last
parameter. -/
theorem foldl_choose_plain (source name : Text) (parameters : List (ParameterKey × Choice)) :
    parameters.foldl choose (plain source name) =
      ⟨source, name, lastChoice .importer parameters, lastChoice .formatter parameters⟩ := by
  induction parameters using List.reverseRec with
  | nil => rfl
  | append_singleton parameters other ih =>
    obtain ⟨which, choice⟩ := other
    rw [List.foldl_concat, ih, lastChoice_append, lastChoice_append]
    cases which <;> rfl

/-- **What a list of parameters is read as**, by what decides it. -/
theorem parseParameters_of_listDecides (d : Directive) {ss : List Text}
    {decided : Except DirectiveError (List (ParameterKey × Choice))} (h : ListDecides ss decided) :
    parseParameters d ss = decided.map (·.foldl choose d) := by
  cases h with
  | wrong hbefore hwrong =>
    refine parseParameters_wrong d ?_ (parseParameter_eq_iff.mpr hwrong) _
    exact fun r hr => (hbefore r hr).imp fun _ => parseParameter_eq_iff.mpr
  | choose hall => exact parseParameters_of_forall₂ d (hall.imp fun _ _ => parseParameter_eq_iff.mpr)

/-- Every list of parameters is decided. Induction on the list. -/
theorem exists_listDecides (ss : List Text) : ∃ decided, ListDecides ss decided := by
  induction ss with
  | nil => exact ⟨_, .choose .nil⟩
  | cons s ss ih =>
    cases hfirst : parseParameter (Text.trim s) with
    | error e => exact ⟨_, @ListDecides.wrong [] ss s e (by simp) (parseParameter_eq_iff.mp hfirst)⟩
    | ok parameter =>
      have hdecides := parseParameter_eq_iff.mp hfirst
      obtain ⟨decided, hdecided⟩ := ih
      cases hdecided with
      | @wrong before after r e hbefore hwrong =>
        have hreads := List.forall_mem_cons.mpr ⟨⟨parameter, hdecides⟩, hbefore⟩
        exact ⟨_, @ListDecides.wrong (s :: before) after r e hreads hwrong⟩
      | choose hall => exact ⟨_, .choose (.cons hdecides hall)⟩

/-! ## The text between the markers -/

/-- Every text has its parts. -/
theorem exists_isCut (s : Text) : ∃ source name back, IsCut s source name back := by
  cases hcut : Text.splitFirst? (· = ' ') s with
  | none => exact ⟨s, [], [], .whole (Text.splitFirst?_char_eq_none_iff.mp hcut)⟩
  | some parts =>
    obtain ⟨source, after⟩ := parts
    obtain ⟨rfl, hsource⟩ := Text.splitFirst?_char_eq_some_iff.mp hcut
    -- behind the source is white space, then the name up to where it ends
    let inName : Char → Bool := fun c => ! (c = ' ' || c = '(')
    have hstart := List.takeWhile_append_dropWhile (p := isWhiteSpace) (l := after)
    have hname := List.takeWhile_append_dropWhile (p := inName) (l := Text.trimStart after)
    refine ⟨source, (Text.trimStart after).takeWhile inName, (Text.trimStart after).dropWhile inName, ?_⟩
    have hs : source ++ ' ' :: after = source ++ ' ' :: (after.takeWhile isWhiteSpace ++
        ((Text.trimStart after).takeWhile inName ++ (Text.trimStart after).dropWhile inName)) := by
      rw [hname, Text.trimStart, hstart]
    rw [hs]
    refine .parts hsource ?_ ?_ ?_ ?_
    · exact Text.isBlank_iff.mpr fun c hc => List.mem_takeWhile_imp hc
    · rw [hname]
      exact fun c hc => Text.head?_trimStart hc
    · exact fun c hc => by simpa [inName] using List.mem_takeWhile_imp hc
    · intro c hc
      have hstop := List.head?_dropWhile_not inName (Text.trimStart after)
      rw [Option.mem_def.mp hc] at hstop
      simpa [inName, or_iff_not_imp_left] using hstop

/-- **The parts of a text are those that it is cut into.** -/
theorem IsCut.split {s source name back : Text} (h : IsCut s source name back) :
    (splitSource s).1 = source ∧ splitName (Text.trimStart (splitSource s).2) = (name, Text.trim back) := by
  cases h with
  | whole hsource =>
    have hwhole : Text.splitFirst? (· = ' ') s = none := Text.splitFirst?_char_eq_none_iff.mpr hsource
    simp [splitSource, splitName, hwhole, Text.trimStart]
  | @parts source blank name back hsource hblank hstart hname hback =>
    have hcut : Text.splitFirst? (· = ' ') (source ++ ' ' :: (blank ++ (name ++ back))) =
        some (source, blank ++ (name ++ back)) :=
      Text.splitFirst?_char_eq_some_iff.mpr ⟨rfl, hsource⟩
    have hrest : Text.trimStart (blank ++ (name ++ back)) = name ++ back :=
      (Text.span_append (Text.isBlank_iff.mp hblank) hstart).2
    obtain ⟨hfront, hback⟩ := Text.span_append (p := fun c => ! (c = ' ' || c = '(')) (a := name) (b := back)
      (fun c hc => by simpa using hname c hc) (fun c hc => by simpa [or_iff_not_imp_left] using hback c hc)
    rw [splitSource, hcut, Option.getD_some, hrest]
    exact ⟨rfl, Prod.ext hfront (congrArg Text.trim hback)⟩

/-- **What the text between the markers is read as**, by its parts. -/
theorem parseBody_of_isCut {s source name back : Text} (h : IsCut s source name back) :
    parseBody s =
      if name = [] then .error .missingName
      else if Text.trim back = [] then .ok (plain source name)
      else
        (enclosed? (Text.trim back)).elim (.error .parametersNotEnclosed) fun inner =>
          parseParameters (plain source name) (inner.splitOn ';') := by
  obtain ⟨rfl, hname⟩ := h.split
  cases hinner : enclosed? (Text.trim back) <;> simp [parseBody, hname, hinner]

/-! ## The markers -/

theorem opens_iff {line rest : Text} : Opens line rest ↔ Text.dropPrefixIgnoreCase? beginMarker line = some rest := by
  simp only [Opens, Text.dropPrefixIgnoreCase?_eq_some_iff, Text.eqIgnoreCase, beq_iff_eq]

theorem dropClosing?_eq_some_iff {rest body : Text} : dropClosing? rest = some body ↔ rest = body ++ commentClose := by
  constructor
  · intro h
    obtain ⟨back, hback, rfl⟩ := Option.map_eq_some_iff.mp h
    have hend := List.isPrefixOf?_eq_some_iff_append_eq.mp hback
    rw [← List.reverse_reverse rest, ← hend, List.reverse_append, List.reverse_reverse]
  · rintro rfl
    exact dropClosing?_append body

theorem hasSource_iff {rest : Text} :
    HasSource rest ↔ ∃ source after, Text.splitFirst? (· = ' ') rest = some (source, after) ∧ source ≠ [] := by
  cases hcut : Text.splitFirst? (· = ' ') rest with
  | none =>
    have hfree := Text.splitFirst?_char_eq_none_iff.mp hcut
    exact iff_of_false (fun h => hfree h.1) (by simp)
  | some parts =>
    obtain ⟨source, after⟩ := parts
    obtain ⟨rfl, hfree⟩ := Text.splitFirst?_char_eq_some_iff.mp hcut
    -- the text begins with a space just where the first one has nothing in front of it
    cases source with
    | nil => simp [HasSource]
    | cons c source =>
      have hc : c ≠ ' ' := fun h => hfree (h ▸ List.mem_cons_self)
      simp [HasSource, hc]

theorem parse_of_not_opens {line : Text} (h : ∀ rest, ¬ Opens line rest) : parse line = .error .missingOpening := by
  unfold parse
  split
  · rfl
  · next rest hopens => exact absurd (opens_iff.mpr hopens) (h rest)

theorem parse_of_not_closes {line rest : Text} (hopens : Opens line rest) (h : ¬ commentClose <:+ rest) :
    parse line = .error .missingClosing := by
  unfold parse
  rw [opens_iff.mp hopens]
  dsimp only
  split
  · rfl
  · next body hclosing => exact absurd ⟨body, (dropClosing?_eq_some_iff.mp hclosing).symm⟩ h

theorem parse_of_not_hasSource {line body : Text} (hopens : Opens line (body ++ commentClose))
    (h : ¬ HasSource (body ++ commentClose)) : parse line = .error .missingSource := by
  unfold parse
  rw [opens_iff.mp hopens]
  dsimp only
  rw [dropClosing?_append]
  dsimp only
  split
  · rfl
  · next source after hcut =>
    by_cases hsource : source = []
    · rw [hsource]
      rfl
    · exact absurd (hasSource_iff.mpr ⟨source, after, hcut, hsource⟩) h

/-- **What a line is read as between its markers.** -/
theorem parse_of_isFramed {line body : Text} (h : IsFramed line body) : parse line = parseBody (Text.trim body) := by
  obtain ⟨source, after, hcut, hne⟩ := hasSource_iff.mp h.hasSource
  have hsource : source.isEmpty = false := List.isEmpty_eq_false_iff.mpr hne
  simp [parse, opens_iff.mp h.opens, dropClosing?_append, hcut, hsource]

/-! ## The line -/

theorem enclosed?_eq_none_iff {s : Text} : enclosed? s = none ↔ ∀ inner, ¬ IsEnclosed s inner := by
  rw [Option.eq_none_iff_forall_ne_some]
  exact forall_congr' fun inner => not_congr enclosed?_eq_some_iff

/-- What is read between the markers is decided by the rules from the name on. -/
theorem decides_parseBody {line body : Text} (hframed : IsFramed line body) :
    Decides line (parseBody (Text.trim body)) := by
  obtain ⟨source, name, back, hcut⟩ := exists_isCut (Text.trim body)
  rw [parseBody_of_isCut hcut]
  split
  · next hname => exact .missingName hframed (hname ▸ hcut)
  · next hname =>
    split
    · next hback => exact .plain hframed hcut hname hback
    · next hback =>
      cases hsome : enclosed? (Text.trim back) with
      | none => exact .parametersNotEnclosed hframed hcut hname hback (enclosed?_eq_none_iff.mp hsome)
      | some inner =>
        have hinner := enclosed?_eq_some_iff.mp hsome
        obtain ⟨decided, hdecided⟩ := exists_listDecides (inner.splitOn ';')
        rw [Option.elim_some, parseParameters_of_listDecides _ hdecided]
        cases decided with
        | error e => exact .wrongParameter hframed hcut hname hinner hdecided
        | ok parameters =>
          simp only [Except.map, foldl_choose_plain]
          exact .choosing hframed hcut hname hinner hdecided

theorem decides_parse (line : Text) : Decides line (parse line) := by
  by_cases hopening : ∃ rest, Opens line rest
  · obtain ⟨rest, hopens⟩ := hopening
    by_cases hclosing : commentClose <:+ rest
    · obtain ⟨body, rfl⟩ := hclosing
      by_cases hsource : HasSource (body ++ commentClose)
      · rw [parse_of_isFramed ⟨hopens, hsource⟩]
        exact decides_parseBody ⟨hopens, hsource⟩
      · rw [parse_of_not_hasSource hopens hsource]
        exact .missingSource hopens hsource
    · rw [parse_of_not_closes hopens hclosing]
      exact .missingClosing hopens hclosing
  · rw [not_exists] at hopening
    rw [parse_of_not_opens hopening]
    exact .missingOpening hopening

theorem IsEnclosed.ne_nil {s inner : Text} (h : IsEnclosed s inner) : s ≠ [] := by
  rw [h.1]
  exact List.cons_ne_nil _ _

/-- **A list of parameters is what the rest of the line is decided by**, where one is there. -/
theorem parse_of_isEnclosed {line body source name back inner : Text}
    {decided : Except DirectiveError (List (ParameterKey × Choice))} (hframed : IsFramed line body)
    (hcut : IsCut (Text.trim body) source name back) (hname : name ≠ []) (hinner : IsEnclosed (Text.trim back) inner)
    (hlist : ListDecides (inner.splitOn ';') decided) :
    parse line = decided.map fun parameters =>
      ⟨source, name, lastChoice .importer parameters, lastChoice .formatter parameters⟩ := by
  rw [parse_of_isFramed hframed, parseBody_of_isCut hcut, if_neg hname, if_neg hinner.ne_nil,
    enclosed?_eq_some_iff.mpr hinner, Option.elim_some, parseParameters_of_listDecides _ hlist]
  simp only [foldl_choose_plain]

/-- **What a line is read as is what the rules decide:** the error for the first rule that it breaks, or the directive
with the last choice for each key where it breaks none. -/
theorem parse_eq_iff (line : Text) (answer : Except DirectiveError Directive) :
    parse line = answer ↔ Decides line answer := by
  constructor
  · rintro rfl
    exact decides_parse line
  · intro h
    cases h with
    | missingOpening h => exact parse_of_not_opens h
    | missingClosing hopens h => exact parse_of_not_closes hopens h
    | missingSource hopens h => exact parse_of_not_hasSource hopens h
    | missingName hframed hcut => rw [parse_of_isFramed hframed, parseBody_of_isCut hcut, if_pos rfl]
    | parametersNotEnclosed hframed hcut hname hback h =>
      rw [parse_of_isFramed hframed, parseBody_of_isCut hcut, if_neg hname, if_neg hback, enclosed?_eq_none_iff.mpr h,
        Option.elim_none]
    | wrongParameter hframed hcut hname hinner hlist => exact parse_of_isEnclosed hframed hcut hname hinner hlist
    | plain hframed hcut hname hback =>
      rw [parse_of_isFramed hframed, parseBody_of_isCut hcut, if_neg hname, if_pos hback]
    | choosing hframed hcut hname hinner hlist => exact parse_of_isEnclosed hframed hcut hname hinner hlist

/-- The first of three parameters that break a rule each decides, and of its own rules that about the query. -/
example :
    parse "<!-- BEGIN-snippet: A.cs B (Importer : ? ; :cs ; lang:x) -->".toList =
      .error (.missingQuery "Importer".toList) := by
  decide +kernel

end Excerpt.Directive
