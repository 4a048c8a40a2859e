import Excerpt.Proofs.Document.Renewal

/-!
# Excerpt — the terminators of rendered lines

What an engine answers is written with the terminator of the line that opens the region for each line feed. Every line
that is written ends in that terminator alone just where no carriage return stood in front of a line feed. From source
files none comes, for their lines lose theirs; but a report is taken as it is, and where its own lines are ended by a
carriage return and a line feed, these stay.

* **`Shown.IsBare`** — what is shown brings no carriage return to the end of a line.
* **`Shown.forall_mem_lines_rendered_iff`** — just then every line gets the terminator that is asked for.
* **`Document.process_terminators`** — the lines that are written into the regions of a document.
-/

namespace Excerpt

open Text (AllPieces EndsBare)

/-- The content of a report does not end in a carriage return, whatever its lines are ended by. -/
theorem Benchmark.endsBare_content (includeEnvironment : Bool) (report : Text) :
    EndsBare (content includeEnvironment report) := by
  intro hlast
  have hstays := Text.getLast?_dropEndWhile hlast
  exact absurd hstays (by decide)

namespace Shown

/-- No carriage return comes to stand in front of a line feed that is rendered: the language of a code block ends in
none, and no line that is taken from a report is ended by a carriage return and a line feed. -/
structure IsBare (shown : Shown) : Prop where
  language : shown.renderer = .codeBlock → EndsBare shown.language
  report : ∀ includeEnvironment text, shown.origin = .report includeEnvironment text →
    ∀ l ∈ Text.lines (Benchmark.content includeEnvironment text), l.terminator ≠ .crlf

theorem kind_fragment (shown : Shown) :
    shown.fragment.kind = SourceFile.language ∨ shown.fragment.kind = "markdown".toList := by
  unfold fragment
  cases shown.origin with
  | sourceFile file place => exact Or.inl rfl
  | report includeEnvironment text => exact Or.inr rfl

/-- What holds of the kinds of fragments, and of the option `lang` where it is given, holds of the language of the
code block. -/
theorem language_of_forall {P : Text → Prop} {shown : Shown} (hsource : P SourceFile.language)
    (hreport : P "markdown".toList)
    (h : ∀ language ∈ shown.directive.formatterOptions.raw "lang".toList, P language) : P shown.language := by
  unfold language Options.getText
  cases hraw : shown.directive.formatterOptions.raw "lang".toList with
  | some language => exact h language hraw
  | none =>
    rw [Option.getD_none]
    rcases shown.kind_fragment with hkind | hkind
    · rwa [hkind]
    · rwa [hkind]

/-- What is found in a source file is bare, unless the language that is given is not. -/
theorem isBare_of_finds {store : Store} {state : SourceExtractor} {shown : Shown}
    (hfinds : (Extractor.sourceFiles state).Finds store shown.directive shown.origin)
    (h : ∀ language ∈ shown.directive.formatterOptions.raw "lang".toList, EndsBare language) : shown.IsBare where
  language _ := language_of_forall (by decide) (by decide) h
  report includeEnvironment text horigin := by
    rw [horigin] at hfinds
    exact hfinds.elim

theorem allPieces_endsBare_opening_iff {language : Text} (h : '\n' ∉ language) :
    AllPieces EndsBare (fence ++ language) ↔ EndsBare language := by
  have hfree : '\n' ∉ fence ++ language := by
    rw [List.mem_append, not_or]
    exact ⟨by decide, h⟩
  rw [Text.allPieces_of_notMem hfree]
  unfold EndsBare
  rw [List.getLast?_append]
  cases language.getLast? with
  | some c => rw [Option.some_or]
  | none => exact iff_of_true (by decide) (by decide)

/-- An excerpt from a source file has no carriage return at the end of a line. -/
theorem allPieces_endsBare_content_iff (shown : Shown) :
    AllPieces EndsBare shown.fragment.content ↔
      ∀ includeEnvironment text, shown.origin = .report includeEnvironment text →
        ∀ l ∈ Text.lines (Benchmark.content includeEnvironment text), l.terminator ≠ .crlf := by
  unfold fragment
  cases shown.origin with
  | sourceFile file place =>
    refine iff_of_true ?_ (by simp)
    exact Fragment.allPieces_endsBare_normalizeIndentation _ _
  | report includeEnvironment text =>
    have hlines := Text.allPieces_endsBare_iff (Benchmark.endsBare_content includeEnvironment text)
    constructor
    · rintro hpieces _ _ ⟨⟩
      exact hlines.mp hpieces
    · intro h
      exact hlines.mpr (h includeEnvironment text rfl)

/-- **Every line that is rendered gets the terminator that is asked for, and nothing of another one,** just where
what is shown brings no carriage return to the end of a line. -/
theorem forall_mem_lines_rendered_iff {shown : Shown} (hlanguage : '\n' ∉ shown.language) {t : Terminator}
    (ht : t ≠ .none) :
    (∀ l ∈ Text.lines (Text.withTerminator t shown.rendered), l.terminator = t ∧ EndsBare l.text) ↔
      shown.IsBare := by
  rw [rendered_eq, Text.forall_mem_lines_withTerminator_iff ht, allPieces_body_iff (by decide),
    allPieces_endsBare_opening_iff hlanguage, allPieces_endsBare_content_iff]
  exact ⟨fun h => ⟨h.1, h.2⟩, fun h => ⟨h.language, h.report⟩⟩

end Shown

theorem terminator_of_isEnded {l : Line} (h : l.IsEnded) : l.terminator = .lf ∨ l.terminator = .crlf := by
  unfold Line.IsEnded at h
  cases hterminator : l.terminator with
  | none => exact absurd hterminator h
  | lf => exact Or.inl rfl
  | crlf => exact Or.inr rfl

namespace Document

variable {store : Store} {engine : Engine}

/-- **The lines that are written into the regions of a document.** Each region holds what the engine shows for its
directive, line by line; and where no language is given that holds a line feed, each of these lines ends in the
terminator of the line that opens the region, and in nothing of another one, just where what is shown brings no
carriage return to the end of a line. -/
theorem process_terminators {text written : Text} {changed : Bool}
    (h : (process store engine text).1 = .ok (written, changed)) :
    ∃ pieces, IsDivision 0 (Text.lines text) pieces ∧
      Text.lines written = (pieces.map (Piece.refreshed (engine.answer store))).flatMap Piece.lines ∧
      ∀ opening old closing, Piece.region opening old closing ∈ pieces →
        (opening.terminator = .lf ∨ opening.terminator = .crlf) ∧
        ∃ shown, engine.Shows store opening.trimmed shown ∧
          (Piece.region opening old closing).refreshed (engine.answer store) =
            .region opening (Text.lines (Text.withTerminator opening.terminator shown.rendered))
              ⟨Directive.endMarker, closing.terminator⟩ ∧
          ((∀ language ∈ shown.directive.formatterOptions.raw "lang".toList, '\n' ∉ language) →
            ((∀ l ∈ Text.lines (Text.withTerminator opening.terminator shown.rendered),
                l.terminator = opening.terminator ∧ EndsBare l.text) ↔ shown.IsBare)) := by
  obtain ⟨pieces, hdiv, -⟩ := process_eq_ok_iff.mp h
  obtain ⟨hans, hlines⟩ := lines_of_process_eq_ok h hdiv
  refine ⟨pieces, hdiv, hlines, ?_⟩
  intro opening old closing hmem
  have hended := hdiv.isEnded_opening hmem
  obtain ⟨rendered, hrendered⟩ := hans _ hmem
  obtain ⟨shown, hshows, rfl⟩ := Engine.answer_eq_ok_iff.mp hrendered
  refine ⟨terminator_of_isEnded hended, shown, hshows, Piece.refreshed_region hrendered, ?_⟩
  intro hlanguage
  exact Shown.forall_mem_lines_rendered_iff (Shown.language_of_forall (by decide) (by decide) hlanguage) hended

/-- A store whose only file declares a type on several lines, which are ended by a carriage return and a line feed. -/
def returnsStore : Store := (MemoryStore.ofList [("R.cs".toList, "class R\r\n\x7b\r\n\x7d\r\n".toList)]).toStore

/-- The lines of the type are shown without the carriage returns of its source. -/
theorem process_terminators_returnsStore :
    let written := ["<!-- begin-snippet: R.cs R -->\n", "```cs\n", "class R\n", "\x7b\n", "\x7d\n", "```\n",
      "<!-- end-snippet -->\n"].flatMap String.toList
    (process returnsStore Engine.fresh asksForType).1 = .ok (written, true) ∧
      ∃ pieces, IsDivision 0 (Text.lines asksForType) pieces ∧
        ∀ opening old closing, Piece.region opening old closing ∈ pieces →
          ∃ shown, Engine.fresh.Shows returnsStore opening.trimmed shown ∧
            ∀ l ∈ Text.lines (Text.withTerminator opening.terminator shown.rendered),
              l.terminator = opening.terminator ∧ EndsBare l.text := by
  intro written
  have h : (process returnsStore Engine.fresh asksForType).1 = .ok (written, true) := by
    decide +kernel
  obtain ⟨pieces, hdiv, -, hregions⟩ := process_terminators h
  refine ⟨h, pieces, hdiv, ?_⟩
  intro opening old closing hmem
  obtain ⟨-, shown, hshows, -, hiff⟩ := hregions opening old closing hmem
  have hdirective : shown.directive = .plain "R.cs".toList "R".toList := by
    have hopening : opening ∈ Text.lines asksForType := by
      rw [← hdiv.covers]
      exact List.mem_flatMap.mpr ⟨_, hmem, List.mem_cons_self⟩
    have hall : ∀ l ∈ Text.lines asksForType, ∀ d ∈ (Directive.parse l.trimmed).toOption,
        d = .plain "R.cs".toList "R".toList := by
      decide +kernel
    refine hall opening hopening _ ?_
    rw [hshows.directive]
    exact Option.mem_some_self _
  obtain ⟨pinned, index, x, -, hselect, -, hfinds⟩ := hshows.excerpt
  have hx : x = .sourceFiles .fresh := by
    rw [hdirective] at hselect
    rw [show Engine.fresh.select returnsStore _ = .ok (0, .sourceFiles .fresh) from by decide +kernel] at hselect
    exact (Prod.mk.inj (Except.ok.inj hselect)).2.symm
  -- no language is given, so nothing can be said against it
  have hlanguage (P : Text → Prop) : ∀ language ∈ shown.directive.formatterOptions.raw "lang".toList, P language := by
    rw [hdirective]
    rintro language ⟨⟩
  exact ⟨shown, hshows, (hiff (hlanguage _)).mpr (Shown.isBare_of_finds (hx ▸ hfinds) (hlanguage _))⟩

/-- A store whose only file is a report, whose lines are ended by a carriage return and a line feed. -/
def reportStore : Store :=
  (MemoryStore.ofList [("P/bin/Release/net8/BenchmarkDotNet.Artifacts/results/P.B-report-github.md".toList,
    "a\r\nb\r\n".toList)]).toStore

/-- The first line of the report keeps its carriage return, in a region that a line feed alone was asked for. -/
theorem process_reportStore :
    let text := "<!-- begin-snippet: P B -->\n<!-- end-snippet -->\n".toList
    ∃ written, (process reportStore Engine.fresh text).1 = .ok (written, true) ∧
      Text.lines written = [⟨"<!-- begin-snippet: P B -->".toList, .lf⟩, ⟨"a".toList, .crlf⟩, ⟨"b".toList, .lf⟩,
        ⟨Directive.endMarker, .lf⟩] := by
  refine ⟨"<!-- begin-snippet: P B -->\na\r\nb\n<!-- end-snippet -->\n".toList, ?_, ?_⟩
  -- the kernel is given characters, for it is slow to take a long literal apart
  · unfold reportStore
    repeat rw [String.toList_ofList]
    decide +kernel
  · repeat rw [String.toList_ofList]
    decide +kernel

end Document

end Excerpt
