import Excerpt.Proofs.Engine.View
import Excerpt.Proofs.Source.BareMarkers
import Excerpt.Proofs.Source.LineRange
import Excerpt.Proofs.Source.Places

/-!
# Excerpt — the line endings of source files

A source file whose lines end with a carriage return and a line feed has the same excerpts as one whose lines
end with a line feed alone: the two have corresponding tokens, declarations and markers, so an excerpt is found
in corresponding places, and there its lines and its text are the same.

* **`SourceFile.parse?_bare`**, **`SourceFile.relocation_bare`** — the source file of a text without carriage
  returns, as far as a name tells, and its events.
* **`SourceFile.isClear_of_isPlace`** — the indentation of an excerpt is measured from a place outside of the ends
  of lines.
* **`SourceFile.extract_bare`** — the excerpt is the same, also where only some lines end with both.
* **`SourceExtractor.extract_crlf`** — and so it is for whoever asks for it.
-/

namespace Excerpt

open Text (bare bareOffset)

/-! ## The code -/

theorem Code.redact_bare {t : Token} (h : t.IsTidy) :
    (Code.mk t.kind (bare t.text)).redact = (Code.mk t.kind t.text).redact := by
  by_cases hkind : t.kind = .ident
  · rw [Text.bare_of_notMem (h.ident hkind)]
  · rw [redact, redact, if_neg hkind, if_neg hkind]

/-- The code is the same but for what no outline depends on. -/
theorem map_redact_codeOf_bare {s : Text} (h : Text.ReturnsEndLines s) :
    (codeOf (tokenize (bare s))).map Code.redact = (codeOf (tokenize s)).map Code.redact := by
  unfold codeOf
  rw [tokenize_bare h, List.filter_map, List.map_map, List.map_map, List.map_map]
  apply List.map_congr_left
  intro t ht
  exact Code.redact_bare (isTidy_of_mem_tokenize h (List.mem_filter.mp ht).1)

namespace SourceFile

variable {s : Text} {file : SourceFile}

/-! ## The events -/

/-- The declaration in the text without carriage returns, as far as a name tells. -/
def bareDeclaration (s : Text) (d : Declaration) : Declaration := (d.moved (bareOffset s)).redact

/-- The source file of the text without carriage returns, as far as a name tells. -/
def withoutReturns (file : SourceFile) : SourceFile :=
  ⟨Layout.ofText (bare file.layout.text),
    file.declarations.map (bareDeclaration file.layout.text)⟩

/-- **The declarations of the text without carriage returns are those of the text, moved.** -/
theorem parse?_bare (h : Text.ReturnsEndLines s) :
    (parse? (bare s)).map redact = (parse? s).map withoutReturns := by
  have hread := Outline.map_entriesAll_read?_redact (map_redact_codeOf_bare h)
  show ((Outline.read? (codeOf (tokenize (bare s)))).map _).map redact =
    ((Outline.read? (codeOf (tokenize s))).map _).map withoutReturns
  revert hread
  cases Outline.read? (codeOf (tokenize (bare s))) with
  | none =>
    cases Outline.read? (codeOf (tokenize s)) with
    | none => exact fun _ => rfl
    | some nodes => intro hread; cases hread
  | some nodes' =>
    cases Outline.read? (codeOf (tokenize s)) with
    | none => intro hread; cases hread
    | some nodes =>
      intro hread
      have hentries := Option.some.inj hread
      -- the ranges are measured from the numbers of tokens, and these are the same in both texts
      have hmoved : ∀ e, (Layout.ofText (bare s)).declaration (OutlineEntry.redact e) =
          bareDeclaration s ((Layout.ofText s).declaration e) := by
        intro e
        show ((Layout.ofText (bare s)).declaration e).redact = _
        rw [(Layout.isMoved_bare h).declaration, bareDeclaration]
      have hdeclarations :
          ((OutlineNode.entriesAll none 0 nodes').map (Layout.ofText (bare s)).declaration).map
              Declaration.redact =
            ((OutlineNode.entriesAll none 0 nodes).map (Layout.ofText s).declaration).map
              (bareDeclaration s) := by
        calc ((OutlineNode.entriesAll none 0 nodes').map (Layout.ofText (bare s)).declaration).map
              Declaration.redact
            = ((OutlineNode.entriesAll none 0 nodes').map OutlineEntry.redact).map
                (Layout.ofText (bare s)).declaration := by
              rw [List.map_map, List.map_map]
              rfl
          _ = ((OutlineNode.entriesAll none 0 nodes).map OutlineEntry.redact).map
                (Layout.ofText (bare s)).declaration := congrArg _ hentries
          _ = ((OutlineNode.entriesAll none 0 nodes).map (Layout.ofText s).declaration).map
                (bareDeclaration s) := by
              rw [List.map_map, List.map_map]
              exact List.map_congr_left fun e _ => hmoved e
      show some (SourceFile.mk _ (Array.map Declaration.redact _)) =
        some (SourceFile.mk _ (Array.map (bareDeclaration s) _))
      rw [List.map_toArray, List.map_toArray, hdeclarations]
      rfl

theorem redact_eq_withoutReturns (h : Text.ReturnsEndLines s) (hfile : parse? s = some file)
    {other : SourceFile} (hother : parse? (bare s) = some other) :
    other.redact = file.withoutReturns := by
  have hparse := parse?_bare h
  rw [hfile, hother] at hparse
  exact Option.some.inj hparse

/-- Behind the start of a range, the first token of code is the same. -/
theorem firstCodeOffset_withoutReturns (h : Text.ReturnsEndLines s) (hfile : parse? s = some file)
    {span : Span} (hspan : Text.IsOffset s span.start) :
    file.withoutReturns.firstCodeOffset (span.moved (bareOffset s)) =
      bareOffset s (file.firstCodeOffset span) := by
  have hlayout := layout_of_parse? hfile
  have htext : (Layout.ofText s).text = s := rfl
  have hfind : (Layout.ofText (bare s)).tokens.toList.find?
        (fun t => (span.moved (bareOffset s)).start ≤ t.start && ! t.kind.isTrivia) =
      ((Layout.ofText s).tokens.toList.find?
        fun t => span.start ≤ t.start && ! t.kind.isTrivia).map (Token.bare s) := by
    rw [Layout.tokens_bare h, Array.toList_map, List.find?_map, ← List.head?_filter,
      ← List.head?_filter]
    congr 2
    apply List.filter_congr
    intro t ht
    show (decide (bareOffset s span.start ≤ (t.bare s).start) && ! t.kind.isTrivia) = _
    rw [decide_eq_decide.mpr (bareOffset_le_start_iff h ht hspan)]
  unfold firstCodeOffset withoutReturns
  rw [hlayout, htext, hfind]
  cases (Layout.ofText s).tokens.toList.find? _ <;> rfl

/-- **The events of the text without carriage returns are those of the text, moved.** -/
theorem relocation_bare (h : Text.ReturnsEndLines s) (hfile : parse? s = some file) :
    Relocation file file.withoutReturns (bareOffset s) (bareDeclaration s) where
  markers := by
    have hlayout := layout_of_parse? hfile
    unfold withoutReturns
    rw [hlayout]
    show (tokenize (bare s)).filterMap Event.ofToken? =
      ((tokenize s).filterMap Event.ofToken?).map (Event.moved (bareOffset s) (bareDeclaration s))
    rw [tokenize_bare h, List.filterMap_map, List.map_filterMap]
    apply List.filterMap_congr
    intro t ht
    exact Event.ofToken?_bare h (bareDeclaration s) ht
  declarations := by
    have hlayout := layout_of_parse? hfile
    unfold withoutReturns
    rw [hlayout]
    rfl
  names d := by
    have hnames := Declaration.sameNames_redact (d.moved (bareOffset s))
    refine ⟨hnames.kind, hnames.name, rfl, ?_⟩
    exact Option.isSome_map
  order e he e' he' := by
    obtain ⟨t, ht, hoffset⟩ := exists_token_of_mem_events hfile he
    obtain ⟨u, hu, hoffset'⟩ := exists_token_of_mem_events hfile he'
    rw [hoffset, hoffset']
    exact bareOffset_le_start_iff h hu (mem_tokenize ht).1
  place bodyOnly d hd := by
    cases bodyOnly with
    | false => rfl
    | true =>
      have hbody := (sound_of_parse? hfile).body d hd
      rw [layout_of_parse? hfile] at hbody
      obtain ⟨kind, name, parent, full, anchor, body⟩ := d
      cases body with
      | none => rfl
      | some span =>
        show Located.mk (span.moved (bareOffset s)) (file.withoutReturns.firstCodeOffset _) = _
        rw [firstCodeOffset_withoutReturns h hfile (hbody span rfl).start]
        rfl

/-! ## The excerpt -/

/-- A body begins at a token, or at the start of a line. -/
theorem isClear_start_of_bodySpan? (h : Text.ReturnsEndLines s) {b : BodyExtent} {span : Span}
    (hspan : (Layout.ofText s).bodySpan? b = some span) : Text.IsClear s span.start := by
  have htoken : ∀ {i : Nat} {t : Token}, (Layout.ofText s).tokens[i]? = some t →
      Text.IsClear s t.start :=
    fun ht => isClear_start_of_mem_tokenize h (Layout.mem_tokenize_of_getElem? ht)
  cases b with
  | block opening closing =>
    simp only [Layout.bodySpan?, Layout.between?, Option.bind_eq_bind, Option.pure_def] at hspan
    obtain ⟨found, -, hspan⟩ := Option.bind_eq_some_iff.mp hspan
    obtain ⟨found', -, hspan⟩ := Option.bind_eq_some_iff.mp hspan
    obtain ⟨first, hfirst, hspan⟩ := Option.bind_eq_some_iff.mp hspan
    obtain ⟨last, -, hspan⟩ := Option.bind_eq_some_iff.mp hspan
    rw [← Option.some.inj hspan]
    dsimp only
    split
    · exact htoken hfirst
    · exact LineTable.isClear_startOfLineAt
        (mem_tokenize (Layout.mem_tokenize_of_getElem? hfirst)).1
  | expression start stop =>
    simp only [Layout.bodySpan?, Option.bind_eq_bind, Option.pure_def] at hspan
    obtain ⟨found, hfound, hspan⟩ := Option.bind_eq_some_iff.mp hspan
    obtain ⟨found', -, hspan⟩ := Option.bind_eq_some_iff.mp hspan
    rw [← Option.some.inj hspan]
    exact htoken (Layout.of_codeToken? hfound).2

theorem isClear_firstCodeOffset (h : Text.ReturnsEndLines s) (hfile : parse? s = some file) {span : Span}
    (hspan : Text.IsClear s span.start) : Text.IsClear s (file.firstCodeOffset span) := by
  unfold firstCodeOffset
  rw [layout_of_parse? hfile]
  split
  · next t ht => exact isClear_start_of_mem_tokenize h (List.mem_of_find?_eq_some ht)
  · exact hspan

/-- The indentation of an excerpt is measured from a place outside of the ends of lines. -/
theorem isClear_of_isPlace (h : Text.ReturnsEndLines s) (hfile : parse? s = some file) {place : Located}
    (hplace : file.IsPlace place) : Text.IsClear s place.anchor := by
  have hlayout := layout_of_parse? hfile
  have hclear : ∀ t ∈ file.layout.tokens, Text.IsClear s t.start := by
    rw [hlayout]
    intro t ht
    exact isClear_start_of_mem_tokenize h (List.mem_toArray.mp ht)
  cases hplace with
  | full hd =>
    obtain ⟨t, ht, -, hanchor⟩ := exists_token_of_mem_declarations hfile hd
    show Text.IsClear s _
    rw [hanchor]
    exact hclear t ht
  | body hd hspan =>
    refine isClear_firstCodeOffset h hfile ?_
    obtain ⟨nodes, -, rfl, -⟩ := exists_outline_of_parse? hfile
    obtain ⟨e, -, rfl⟩ := List.mem_map.mp (List.mem_toArray.mp hd)
    obtain ⟨b, -, hb⟩ := Option.bind_eq_some_iff.mp hspan
    exact isClear_start_of_bodySpan? h hb
  | closed ht _ _ => exact hclear _ ht

/-- The lines of a range are the same. -/
theorem lineRange_bare {other : SourceFile} {p t q : Text}
    (hfile : file.layout = Layout.ofText (p ++ (t ++ q)))
    (hother : other.layout = Layout.ofText (bare p ++ (bare t ++ bare q))) :
    other.lineRange ⟨Text.width (bare p), Text.width (bare p) + Text.width (bare t)⟩ =
      file.lineRange ⟨Text.width p, Text.width p + Text.width t⟩ := by
  cases hblank : Text.isBlank t with
  | true =>
    have hblank' : Text.isBlank (bare t) = true := by rw [Text.isBlank_bare, hblank]
    rw [lineRange_of_isBlank hfile hblank, lineRange_of_isBlank hother hblank', Text.count_bare]
  | false =>
    have hblank' : Text.isBlank (bare t) = false := by rw [Text.isBlank_bare, hblank]
    have hlead : (bare t).takeWhile isWhiteSpace = bare (t.takeWhile isWhiteSpace) :=
      Text.takeWhile_bare (by decide) t
    have htrim : Text.trimEnd (bare t) = bare (Text.trimEnd t) :=
      Text.dropEndWhile_bare (by decide) t
    rw [lineRange_of_not_isBlank hfile hblank, lineRange_of_not_isBlank hother hblank', hlead, htrim,
      ← Text.bare_append, ← Text.bare_append, Text.count_bare, Text.count_bare]

/-- **The excerpt is the same without carriage returns**, where they stand in front of line feeds only. -/
theorem extract_bare (h : Text.ReturnsEndLines s) (hfile : parse? s = some file) {other : SourceFile}
    (hother : parse? (bare s) = some other) (source name : Text) (bodyOnly : Bool) :
    other.extract source name bodyOnly = file.extract source name bodyOnly := by
  have hlocate : other.locate name bodyOnly =
      (file.locate name bodyOnly).map (Located.moved (bareOffset s)) := by
    rw [← locate_redact, redact_eq_withoutReturns h hfile hother,
      (relocation_bare h hfile).locate_eq]
  have hlayout := layout_of_parse? hfile
  have hlayout' := layout_of_parse? hother
  unfold extract
  rw [hlocate]
  cases hplace : file.locate name bodyOnly with
  | error reason => rfl
  | ok place =>
    have hcase := isPlace_of_locate hfile hplace
    have hspan := hcase.isIn hfile
    have hanchor := isClear_of_isPlace h hfile hcase
    obtain ⟨⟨start, stop⟩, anchor⟩ := place
    obtain ⟨hordered, ⟨p, ⟨q, rfl⟩, rfl⟩, hstop⟩ := hspan
    obtain ⟨t, r, rfl, rfl⟩ := hstop.exists_append hordered
    rw [Text.bare_append, Text.bare_append] at hlayout'
    have hspan : Span.moved (bareOffset (p ++ (t ++ r))) ⟨Text.width p, Text.width p + Text.width t⟩ =
        ⟨Text.width (bare p), Text.width (bare p) + Text.width (bare t)⟩ := by
      rw [Span.moved, Text.bareOffset_width, Text.bareOffset_add]
    have hcontent : ∀ indent, Fragment.normalizeIndentation (bare t) indent =
        Fragment.normalizeIndentation t indent :=
      Fragment.normalizeIndentation_bare (h.of_infix ⟨p, r, List.append_assoc p t r⟩)
    have hcolumn : other.layout.lines.columnOf (bareOffset (p ++ (t ++ r)) anchor) =
        file.layout.lines.columnOf anchor := by
      have hkept := LineTable.columnOf_bareOffset h hanchor
      rw [Text.bare_append, Text.bare_append] at hkept
      rw [hlayout, hlayout']
      exact hkept
    have hslice : Span.slice ⟨Text.width p, Text.width p + Text.width t⟩ file.layout.text = t := by
      rw [hlayout]
      exact Text.slice_append p t r
    have hslice' : Span.slice ⟨Text.width (bare p), Text.width (bare p) + Text.width (bare t)⟩
        other.layout.text = bare t := by
      rw [hlayout']
      exact Text.slice_append (bare p) (bare t) (bare r)
    simp only [Except.map, Located.moved, hspan, lineRange_bare hlayout hlayout', hslice, hslice',
      hcontent, hcolumn]

end SourceFile

/-! ## Whoever asks for it -/

namespace SourceExtractor

variable {source text : Text} {x y : SourceExtractor} {store other : Store}

/-- **The ends of lines do not matter**: from a source with line feeds alone, and from one with a carriage
return before each of them, the same is extracted under each name and with all options, or for the same reason
nothing is. -/
theorem extract_crlf (htext : '\r' ∉ text) (hview : x.view store source = outlined source text)
    (hother : y.view other source = outlined source (Text.withTerminator .crlf text))
    (hhandle : canHandle store source = canHandle other source) (name : Text) (options : Options) :
    (y.extract other source name options).1 = (x.extract store source name options).1 := by
  have hreturns := Text.returnsEndLines_withTerminator_crlf htext
  have hbare : bare (Text.withTerminator .crlf text) = text := Text.bare_withTerminator_crlf htext
  have hparse := SourceFile.parse?_bare hreturns
  rw [hbare] at hparse
  rw [extract_fst, extract_fst, hview, hother, hhandle, outlined, outlined]
  cases options.getBoolean "body-only".toList false with
  | error e => rfl
  | ok bodyOnly =>
    cases canHandle other source with
    | error e => rfl
    | ok _ =>
      -- either both texts have an outline, or neither
      cases hfile : SourceFile.parse? (Text.withTerminator .crlf text) with
      | none =>
        rw [hfile] at hparse
        rw [Option.map_eq_none_iff.mp hparse]
      | some file =>
        rw [hfile] at hparse
        obtain ⟨bareFile, hbareFile, -⟩ := Option.map_eq_some_iff.mp hparse
        rw [hbareFile]
        rw [← hbare] at hbareFile
        dsimp only
        rw [SourceFile.extract_bare hreturns hfile hbareFile]

/-- A marked excerpt with a literal that is not closed on its line, and with a comment across lines. -/
def openLiteral : Text :=
  "class A \x7b\n  // begin-snippet: B\n  string s = \"\\\n  /* b\n  */ int F;\n  // end-snippet\n\x7d".toList

/-- It is the same excerpt in both files. -/
theorem extract_crlf_openLiteral :
    (fresh.extract (storeOf (Text.withTerminator .crlf openLiteral)) "R.cs".toList "B".toList
        Options.empty).1 =
      (fresh.extract (storeOf openLiteral) "R.cs".toList "B".toList Options.empty).1 := by
  have hview : ∀ text, fresh.view (storeOf text) "R.cs".toList = outlined "R.cs".toList text :=
    fun _ => view_eq_outlined rfl rfl
  have hhandle : ∀ text, canHandle (storeOf text) "R.cs".toList = .ok () := fun _ => rfl
  have hreturn : '\r' ∉ openLiteral := by decide +kernel
  apply extract_crlf hreturn (hview _) (hview _)
  rw [hhandle, hhandle]

end SourceExtractor

end Excerpt
