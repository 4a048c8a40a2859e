import Excerpt.Proofs.Document.Renewal

/-!
# Excerpt — end markers in what is rendered

A region is read up to its first end marker, and nothing keeps an end marker out of what is rendered into it. What is
rendered has one just where the source of the excerpt has one among the lines that are taken, or where the language
that is given for a code block brings one along. Where no answer has one, the end marker that is written behind the
answer is the first, and the document is brought up to date as if it had never been before; else the next run takes
what stands behind the first end marker for text of the author.

* **`Shown.HoldsNoEndMarker`** — what is shown brings no end marker along.
* **`Shown.forall_mem_lines_rendered_not_closesRegion_iff`** — just then no line that is rendered closes a region.
* **`isDivision_refreshed_iff`** — just where no answer closes a region, the regions that are written are closed by
  the end markers that were written for them.
* **`Document.process_endMarkers`** — both together for a document, and what is written later.
-/

namespace Excerpt

open Text (AllPieces)

/-! ## What is rendered -/

/-- An end marker does not begin as a fence does. -/
theorem isEndMarker_fence_append (s : Text) : Directive.isEndMarker (Text.trim (fence ++ s)) = false := by
  have hhead : (Text.trim (fence ++ s)).head? = some '`' := Text.head?_trim_cons (by decide) _
  by_contra hmarker
  have heq : Text.lower (Text.trim (fence ++ s)) = Text.lower Directive.endMarker := by
    simpa [Directive.isEndMarker, Text.eqIgnoreCase] using hmarker
  have hheads := congrArg List.head? heq
  rw [Text.lower, List.head?_map, hhead] at hheads
  exact absurd hheads (by decide)

namespace Shown

/-- What is shown brings no end marker along: none in the language of a code block behind its first line, and none
among the lines that the excerpt is taken from. -/
structure HoldsNoEndMarker (shown : Shown) : Prop where
  language : shown.renderer = .codeBlock →
    ∀ piece ∈ (shown.language.splitOn '\n').tail, ¬ Directive.isEndMarker (Text.trim piece)
  text : ∀ l ∈ Text.lines shown.origin.text, ¬ l.closesRegion

/-- The line that opens a code block is none that closes a region; what the language goes on with may be. -/
theorem allPieces_opening_iff (language : Text) :
    AllPieces (fun piece => ¬ Directive.isEndMarker (Text.trim piece)) (fence ++ language) ↔
      ∀ piece ∈ (language.splitOn '\n').tail, ¬ Directive.isEndMarker (Text.trim piece) := by
  rw [Text.allPieces_append (by decide), and_iff_right]
  intro first _
  rw [isEndMarker_fence_append]
  decide

/-- Indentation does not matter to whether a line closes a region, and blank lines close none. -/
theorem allPieces_content_iff (shown : Shown) :
    AllPieces (fun piece => ¬ Directive.isEndMarker (Text.trim piece)) shown.fragment.content ↔
      ∀ l ∈ Text.lines shown.origin.text, ¬ l.closesRegion := by
  have hnil : ¬ Directive.isEndMarker [] := by decide
  unfold fragment
  cases shown.origin with
  | report includeEnvironment text => exact Text.allPieces_trim_iff (P := fun s => ¬ Directive.isEndMarker s) hnil
  | sourceFile file place =>
    show AllPieces _ (Fragment.normalizeIndentation _ _) ↔ _
    rw [Fragment.allPieces_normalizeIndentation (by decide)]
    simp only [Fragment.trim_stripIndent]
    exact Fragment.forall_mem_keptLines_iff (P := fun s => ¬ Directive.isEndMarker s) hnil

/-- **No line that is rendered closes a region** just where what is shown brings no end marker along. -/
theorem forall_mem_lines_rendered_not_closesRegion_iff (shown : Shown) :
    (∀ l ∈ Text.lines shown.rendered, ¬ l.closesRegion) ↔ shown.HoldsNoEndMarker := by
  have hpieces : (∀ l ∈ Text.lines shown.rendered, ¬ l.closesRegion) ↔
      AllPieces (fun piece => ¬ Directive.isEndMarker (Text.trim piece)) shown.body := by
    rw [rendered_eq, Text.forall_mem_lines_append_lineFeed_iff]
    refine AllPieces.congr (fun piece => ?_) shown.body
    rw [Line.closesRegion, Text.trimmed_ofTerminated]
  rw [hpieces, allPieces_body_iff (by decide), allPieces_content_iff, allPieces_opening_iff]
  exact ⟨fun h => ⟨h.1, h.2⟩, fun h => ⟨h.language, h.text⟩⟩

end Shown

/-! ## What is written -/

/-- What the engine shows for the directives of regions brings no end marker along. -/
def ShowsNoEndMarker (store : Store) (engine : Engine) (pieces : List Piece) : Prop :=
  ∀ opening old closing shown, Piece.region opening old closing ∈ pieces →
    engine.Shows store opening.trimmed shown → shown.HoldsNoEndMarker

theorem rendersNoEndMarker_iff {store : Store} {engine : Engine} {text : Text} {pieces : List Piece}
    (hdiv : IsDivision 0 (Text.lines text) pieces) :
    RendersNoEndMarker (engine.answer store) text ↔ ShowsNoEndMarker store engine pieces := by
  constructor
  · intro h opening old closing shown hmem hshows
    have hanswer : engine.answer store opening.trimmed = .ok shown.rendered :=
      Engine.answer_eq_ok_iff.mpr ⟨shown, hshows, rfl⟩
    exact shown.forall_mem_lines_rendered_not_closesRegion_iff.mp (h pieces hdiv opening old closing _ hmem hanswer)
  · intro h pieces' hdiv' opening old closing rendered hmem hanswer
    obtain rfl := hdiv'.unique hdiv
    obtain ⟨shown, hshows, rfl⟩ := Engine.answer_eq_ok_iff.mp hanswer
    exact shown.forall_mem_lines_rendered_not_closesRegion_iff.mpr (h opening old closing shown hmem hshows)

/-- **The refreshed pieces are how their lines divide just where no answer closes a region:** a region that holds an
end marker does not go on to the one that was written for it. -/
theorem isDivision_refreshed_iff {answer : Text → Except Error Text} {text : Text} {pieces : List Piece}
    (hdiv : IsDivision 0 (Text.lines text) pieces) (hans : ∀ p ∈ pieces, p.Answered answer) :
    IsDivision 0 ((pieces.map (Piece.refreshed answer)).flatMap Piece.lines) (pieces.map (Piece.refreshed answer)) ↔
      RendersNoEndMarker answer text := by
  constructor
  · intro h pieces' hdiv' opening old closing rendered hmem hrendered
    obtain rfl := hdiv'.unique hdiv
    obtain ⟨before, behind, rfl⟩ := List.append_of_mem hmem
    have hstands := h.stands (before.map (Piece.refreshed answer)) _ (behind.map (Piece.refreshed answer))
      (by rw [List.map_append, List.map_cons])
    rw [Piece.refreshed_region hrendered] at hstands
    exact (forall_not_closesRegion_withTerminator_iff (hdiv.isEnded_opening hmem)).mp hstands.2.2.2
  · intro h
    exact isDivision_refreshed hdiv (Text.isLines_lines text) hans (h pieces hdiv)

namespace Document

/-- **End markers in what is rendered.** A line that is answered gets an answer of which no line closes a region just
where what is shown for it brings no end marker along. In the document that is written each region is closed by the
end marker that was written for it just where this holds of all regions; and then, whatever has become of the sources
and of the engine, the document is renewed later as the one before it would be, so that nothing of what was shown
once stays. -/
theorem process_endMarkers (store : Store) (engine : Engine) :
    (∀ line rendered, engine.answer store line = .ok rendered →
      ∃ shown, engine.Shows store line shown ∧ rendered = shown.rendered ∧
        ((∀ l ∈ Text.lines rendered, ¬ l.closesRegion) ↔ shown.HoldsNoEndMarker)) ∧
    ∀ text written changed, (process store engine text).1 = .ok (written, changed) →
      ∃ pieces, IsDivision 0 (Text.lines text) pieces ∧
        Text.lines written = (pieces.map (Piece.refreshed (engine.answer store))).flatMap Piece.lines ∧
        (IsDivision 0 (Text.lines written) (pieces.map (Piece.refreshed (engine.answer store))) ↔
          ShowsNoEndMarker store engine pieces) ∧
        (ShowsNoEndMarker store engine pieces →
          ∀ store' engine' result, (process store' engine' text).1 = .ok result →
            (process store' engine' written).1 = .ok result) := by
  constructor
  · intro line rendered hanswer
    obtain ⟨shown, hshows, rfl⟩ := Engine.answer_eq_ok_iff.mp hanswer
    exact ⟨shown, hshows, rfl, shown.forall_mem_lines_rendered_not_closesRegion_iff⟩
  · intro text written changed h
    obtain ⟨pieces, hdiv, -⟩ := process_eq_ok_iff.mp h
    obtain ⟨hans, hlines⟩ := lines_of_process_eq_ok h hdiv
    refine ⟨pieces, hdiv, hlines, ?_, ?_⟩
    · rw [hlines, isDivision_refreshed_iff hdiv hans, rendersNoEndMarker_iff hdiv]
    · intro hnone store' engine' result hagain
      exact process_written h ((rendersNoEndMarker_iff hdiv).mpr hnone) hagain

/-- A store whose only file declares the type in another way. -/
def otherTypeStore : Store := (MemoryStore.ofList [("R.cs".toList, "enum R;".toList)]).toStore

/-- Nothing of the type that was shown first stays when it has become another. -/
theorem process_endMarkers_asksForType :
    let written := ["<!-- begin-snippet: R.cs R -->\n", "```cs\n", "class R;\n", "```\n",
      "<!-- end-snippet -->\n"].flatMap String.toList
    let renewed := ["<!-- begin-snippet: R.cs R -->\n", "```cs\n", "enum R;\n", "```\n",
      "<!-- end-snippet -->\n"].flatMap String.toList
    (∃ shown, Engine.fresh.Shows oneTypeStore "<!-- begin-snippet: R.cs R -->".toList shown ∧
        shown.HoldsNoEndMarker) ∧
      (process oneTypeStore Engine.fresh asksForType).1 = .ok (written, true) ∧
      (∃ pieces, IsDivision 0 (Text.lines asksForType) pieces ∧
        ShowsNoEndMarker oneTypeStore Engine.fresh pieces) ∧
      (process otherTypeStore Engine.fresh asksForType).1 = .ok (renewed, true) ∧
      (process otherTypeStore Engine.fresh written).1 = .ok (renewed, true) := by
  intro written renewed
  have h : (process oneTypeStore Engine.fresh asksForType).1 = .ok (written, true) := by
    decide +kernel
  have hother : (process otherTypeStore Engine.fresh asksForType).1 = .ok (renewed, true) := by
    decide +kernel
  have hanswer : Engine.fresh.answer oneTypeStore "<!-- begin-snippet: R.cs R -->".toList =
      .ok (["```cs\n", "class R;\n", "```\n"].flatMap String.toList) := by
    decide +kernel
  have hopen : ∀ l ∈ Text.lines (["```cs\n", "class R;\n", "```\n"].flatMap String.toList), ¬ l.closesRegion := by
    decide +kernel
  obtain ⟨hanswers, hdocuments⟩ := process_endMarkers oneTypeStore Engine.fresh
  obtain ⟨shown, hshows, -, hholds⟩ := hanswers _ _ hanswer
  obtain ⟨pieces, hdiv, hlines, hiff, hlater⟩ := hdocuments asksForType written true h
  have hnone : ShowsNoEndMarker oneTypeStore Engine.fresh pieces := by
    apply (rendersNoEndMarker_iff hdiv).mp
    apply rendersNoEndMarker_of_forall_mem_lines
    -- the first line is answered without an end marker, and the second one is no directive
    rw [show Text.lines asksForType = [⟨"<!-- begin-snippet: R.cs R -->".toList, .lf⟩, ⟨Directive.endMarker, .lf⟩]
      from by decide +kernel, List.forall_mem_cons, List.forall_mem_singleton]
    constructor
    · intro rendered hrendered
      rwa [← Except.ok.inj (hanswer.symm.trans hrendered)]
    · intro rendered hrendered
      have herror : Engine.fresh.answer oneTypeStore Directive.endMarker = .error (.directive .missingOpening) := rfl
      exact absurd (herror.symm.trans hrendered) (by simp)
  have hrenewed := hlater hnone otherTypeStore Engine.fresh (renewed, true) hother
  exact ⟨⟨shown, hshows, hholds.mp hopen⟩, h, ⟨pieces, hdiv, hnone⟩, hother, hrenewed⟩

/-- A store whose only file declares a type behind a comment that quotes an end marker. -/
def quotingStore : Store :=
  (MemoryStore.ofList [("R.cs".toList, "/*\n<!-- end-snippet -->\n*/\nclass R;".toList)]).toStore

/-- The end marker of the comment closes the region that it is shown in, and what stood behind it stays when the
document is brought up to date again. -/
theorem process_quotingStore :
    let written := ["<!-- begin-snippet: R.cs R -->\n", "```cs\n", "/*\n", "<!-- end-snippet -->\n", "*/\n",
      "class R;\n", "```\n", "<!-- end-snippet -->\n"].flatMap String.toList
    let stale := ["*/\n", "class R;\n", "```\n", "<!-- end-snippet -->\n"].flatMap String.toList
    (process quotingStore Engine.fresh asksForType).1 = .ok (written, true) ∧
      (∃ rendered, Engine.fresh.answer quotingStore "<!-- begin-snippet: R.cs R -->".toList = .ok rendered ∧
        ∃ l ∈ Text.lines rendered, l.closesRegion) ∧
      (process quotingStore (process quotingStore Engine.fresh asksForType).2 written).1 =
        .ok (written ++ stale, true) := by
  refine ⟨?_, ⟨["```cs\n", "/*\n", "<!-- end-snippet -->\n", "*/\n", "class R;\n", "```\n"].flatMap
    String.toList, ?_, ?_⟩, ?_⟩
  · decide +kernel
  · decide +kernel
  · decide +kernel
  · decide +kernel

end Document

end Excerpt
