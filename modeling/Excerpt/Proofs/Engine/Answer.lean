import Excerpt.Proofs.Engine.View
import Excerpt.Proofs.Text.Pieces

/-!
# Excerpt — what an answer is made of

An engine answers a line where nothing that the line asks for is missing: the line is a directive, its renderer and
its extractor are known, and the extractor finds the excerpt. The answer is then the excerpt as the renderer writes
it, and nothing else goes into it.

* **`Origin`**, **`Shown`** — where an excerpt was found, and what is shown for a line.
* **`Extractor.Finds`**, **`Engine.Shows`** — what must hold for an excerpt to be found and for a line to be shown.
* **`Extractor.extract_eq_ok_iff`**, **`Engine.answer_eq_ok_iff`** — an excerpt is extracted just where it is found,
  and a line is answered just where something is shown for it.
-/

namespace Excerpt

/-! ## Where an excerpt is found -/

/-- Where an excerpt is found: in a place of a source file, or in the report of a benchmark, with or without the
description of its environment. -/
inductive Origin where
  | sourceFile (file : SourceFile) (place : Located)
  | report (includeEnvironment : Bool) (text : Text)

namespace Origin

/-- The text that the excerpt is taken from, before its indentation is taken off. -/
def text : Origin → Text
  | sourceFile file place => place.span.slice file.layout.text
  | report includeEnvironment text => Benchmark.content includeEnvironment text

/-- The excerpt that a directive gets under the given source and name. -/
def fragment (source name : Text) : Origin → Fragment
  | sourceFile file place =>
    { source, name
      lines := some (file.lineRange place.span)
      content := Fragment.normalizeIndentation (place.span.slice file.layout.text)
        (file.layout.lines.columnOf place.anchor)
      kind := SourceFile.language }
  | report includeEnvironment text =>
    { source, name, lines := none
      content := Benchmark.content includeEnvironment text
      kind := "markdown".toList }

end Origin

theorem map_eq_ok_iff {ε α β : Type} {f : α → β} {x : Except ε α} {b : β} :
    x.map f = .ok b ↔ ∃ a, x = .ok a ∧ f a = b := by
  cases x <;> simp [Except.map]

/-- A source file gives an excerpt just where it has a place of the name. -/
theorem SourceFile.extract_eq_map_locate (file : SourceFile) (source name : Text) (bodyOnly : Bool) :
    file.extract source name bodyOnly =
      (file.locate name bodyOnly).map fun place => (Origin.sourceFile file place).fragment source name := rfl

/-- An excerpt is taken from a source file just where the option is one, the source can be handled and read, and has a
place of the name. -/
theorem SourceExtractor.extract_fst_eq_ok_iff {x : SourceExtractor} {store : Store} {source name : Text}
    {options : Options} {fragment : Fragment} :
    (x.extract store source name options).1 = .ok fragment ↔
      ∃ bodyOnly file place, options.getBoolean "body-only".toList false = .ok bodyOnly ∧
        canHandle store source = .ok () ∧ x.view store source = .ok file ∧ file.locate name bodyOnly = .ok place ∧
        (Origin.sourceFile file place).fragment source name = fragment := by
  rw [extract_fst]
  constructor
  · intro h
    split at h
    · simp at h
    · next bodyOnly hoption =>
      split at h
      · simp at h
      · next hcan =>
        split at h
        · simp at h
        · next file hview =>
          rw [SourceFile.extract_eq_map_locate] at h
          cases hplace : file.locate name bodyOnly with
          | error e => simp [hplace, Except.map] at h
          | ok place =>
            rw [hplace] at h
            exact ⟨bodyOnly, file, place, hoption, hcan, hview, hplace, Except.ok.inj h⟩
  · rintro ⟨bodyOnly, file, place, hoption, hcan, hview, hplace, rfl⟩
    rw [hoption]
    dsimp only
    rw [hcan]
    dsimp only
    rw [hview]
    dsimp only
    rw [SourceFile.extract_eq_map_locate, hplace]
    rfl

/-- An excerpt is taken from a report just where the option is one, and the report exists and can be read. -/
theorem Benchmark.extract_fst_eq_ok_iff {store : Store} {source name : Text} {options : Options}
    {fragment : Fragment} :
    (extract store source name options).1 = .ok fragment ↔
      ∃ includeEnvironment path text, options.getBoolean "env".toList false = .ok includeEnvironment ∧
        existingReport store source name = .ok path ∧ store.read path = .ok text ∧
        (Origin.report includeEnvironment text).fragment source name = fragment := by
  constructor
  · intro h
    unfold extract at h
    split at h
    · simp at h
    · next includeEnvironment hoption =>
      split at h
      · simp at h
      · next path hpath =>
        split at h
        · simp at h
        · next text hread => exact ⟨includeEnvironment, path, text, hoption, hpath, hread, Except.ok.inj h⟩
  · rintro ⟨includeEnvironment, path, text, hoption, hpath, hread, rfl⟩
    unfold extract
    rw [hoption]
    dsimp only
    rw [hpath]
    dsimp only
    rw [hread]
    rfl

namespace Extractor

variable (store : Store) (d : Directive)

/-- The extractor finds the excerpt that the directive asks for. -/
def Finds : Extractor → Origin → Prop
  | sourceFiles x, .sourceFile file place =>
    ∃ bodyOnly, d.importerOptions.getBoolean "body-only".toList false = .ok bodyOnly ∧
      SourceExtractor.canHandle store d.source = .ok () ∧ x.view store d.source = .ok file ∧
      file.locate d.name bodyOnly = .ok place
  | benchmark _, .report includeEnvironment text =>
    d.importerOptions.getBoolean "env".toList false = .ok includeEnvironment ∧
      ∃ path, Benchmark.existingReport store d.source d.name = .ok path ∧ store.read path = .ok text
  | _, _ => False

variable {store d}

theorem sourceFiles_extract_eq_ok_iff {x : SourceExtractor} {fragment : Fragment} :
    (x.extract store d.source d.name d.importerOptions).1 = .ok fragment ↔
      ∃ origin, (sourceFiles x).Finds store d origin ∧ origin.fragment d.source d.name = fragment := by
  rw [SourceExtractor.extract_fst_eq_ok_iff]
  constructor
  · rintro ⟨bodyOnly, file, place, hoption, hcan, hview, hplace, rfl⟩
    exact ⟨.sourceFile file place, ⟨bodyOnly, hoption, hcan, hview, hplace⟩, rfl⟩
  · rintro ⟨origin, hfinds, rfl⟩
    cases origin with
    | report includeEnvironment text => exact hfinds.elim
    | sourceFile file place =>
      obtain ⟨bodyOnly, hoption, hcan, hview, hplace⟩ := hfinds
      exact ⟨bodyOnly, file, place, hoption, hcan, hview, hplace, rfl⟩

theorem benchmark_extract_eq_ok_iff {reads : Nat} {fragment : Fragment} :
    (Benchmark.extract store d.source d.name d.importerOptions).1 = .ok fragment ↔
      ∃ origin, (benchmark reads).Finds store d origin ∧ origin.fragment d.source d.name = fragment := by
  rw [Benchmark.extract_fst_eq_ok_iff]
  constructor
  · rintro ⟨includeEnvironment, path, text, hoption, hpath, hread, rfl⟩
    exact ⟨.report includeEnvironment text, ⟨hoption, path, hpath, hread⟩, rfl⟩
  · rintro ⟨origin, hfinds, rfl⟩
    cases origin with
    | sourceFile file place => exact hfinds.elim
    | report includeEnvironment text =>
      obtain ⟨hoption, path, hpath, hread⟩ := hfinds
      exact ⟨includeEnvironment, path, text, hoption, hpath, hread, rfl⟩

/-- **An excerpt is extracted just where it is found.** -/
theorem extract_eq_ok_iff {x : Extractor} {fragment : Fragment} :
    (x.extract store d.source d.name d.importerOptions).1 = .ok fragment ↔
      ∃ origin, x.Finds store d origin ∧ origin.fragment d.source d.name = fragment := by
  cases x with
  | sourceFiles x => exact sourceFiles_extract_eq_ok_iff
  | benchmark reads => exact benchmark_extract_eq_ok_iff

end Extractor

/-! ## What is shown for a line -/

/-- What is shown for a line: the excerpt that its directive asks for, and how it is written. -/
structure Shown where
  directive : Directive
  renderer : Renderer
  origin : Origin

namespace Shown

def fragment (shown : Shown) : Fragment :=
  shown.origin.fragment shown.directive.source shown.directive.name

/-- The language that a code block around the excerpt names. -/
def language (shown : Shown) : Text :=
  shown.directive.formatterOptions.getText "lang".toList shown.fragment.kind

def rendered (shown : Shown) : Text :=
  shown.renderer.render shown.fragment shown.directive.formatterOptions

/-- What is rendered up to the line feed at its end. -/
def body (shown : Shown) : Text :=
  match shown.renderer with
  | .codeBlock => fence ++ shown.language ++ '\n' :: (shown.fragment.content ++ '\n' :: fence)
  | .raw => shown.fragment.content

theorem rendered_eq (shown : Shown) : shown.rendered = shown.body ++ ['\n'] := by
  unfold rendered body language Renderer.render
  cases shown.renderer <;> simp

/-- **What must hold of every line that is rendered** is a matter of the language of the code block and of the
content. -/
theorem allPieces_body_iff {P : Text → Prop} (hfence : P fence) (shown : Shown) :
    Text.AllPieces P shown.body ↔
      (shown.renderer = .codeBlock → Text.AllPieces P (fence ++ shown.language)) ∧
        Text.AllPieces P shown.fragment.content := by
  unfold body
  cases shown.renderer with
  | raw => simp
  | codeBlock =>
    have hlast : Text.AllPieces P fence := (Text.allPieces_of_notMem (by decide)).mpr hfence
    dsimp only
    rw [Text.allPieces_append_lineFeed, Text.allPieces_append_lineFeed, and_iff_left hlast, forall_prop_of_true rfl]

end Shown

namespace Engine

variable (store : Store) (engine : Engine)

/-- The engine shows for the line what its directive asks for: with the extractor that the directive names, or the
first one that can handle its source, and with the renderer that it names, or that the extractor prefers. -/
structure Shows (line : Text) (shown : Shown) : Prop where
  directive : Directive.parse line = .ok shown.directive
  excerpt : ∃ pinned index x, pinnedRenderer shown.directive = .ok pinned ∧
    engine.select store shown.directive = .ok (index, x) ∧
    shown.renderer = pinned.getD x.preferredRenderer ∧ x.Finds store shown.directive shown.origin

variable {store engine}

theorem resolve_fst_eq_ok_iff {d : Directive} {rendered : Text} :
    (engine.resolve store d).1 = .ok rendered ↔
      ∃ pinned index x fragment, pinnedRenderer d = .ok pinned ∧ engine.select store d = .ok (index, x) ∧
        (x.extract store d.source d.name d.importerOptions).1 = .ok fragment ∧
        (pinned.getD x.preferredRenderer).render fragment d.formatterOptions = rendered := by
  unfold resolve
  cases hpinned : pinnedRenderer d with
  | error e => simp
  | ok pinned =>
    cases hselect : engine.select store d with
    | error e => simp
    | ok found =>
      obtain ⟨index, x⟩ := found
      dsimp only
      rw [map_eq_ok_iff]
      constructor
      · rintro ⟨fragment, hextract, hrender⟩
        exact ⟨pinned, index, x, fragment, rfl, rfl, hextract, hrender⟩
      · rintro ⟨_, _, _, fragment, ⟨⟩, ⟨⟩, hextract, hrender⟩
        exact ⟨fragment, hextract, hrender⟩

/-- **A line is answered just where something is shown for it**, and the answer is what is rendered. -/
theorem answer_eq_ok_iff {line rendered : Text} :
    engine.answer store line = .ok rendered ↔ ∃ shown, engine.Shows store line shown ∧ shown.rendered = rendered := by
  unfold answer render
  constructor
  · intro h
    split at h
    · simp at h
    · next d hparse =>
      obtain ⟨pinned, index, x, fragment, hpinned, hselect, hextract, hrender⟩ := resolve_fst_eq_ok_iff.mp h
      obtain ⟨origin, hfinds, rfl⟩ := Extractor.extract_eq_ok_iff.mp hextract
      exact ⟨⟨d, pinned.getD x.preferredRenderer, origin⟩,
        ⟨hparse, pinned, index, x, hpinned, hselect, rfl, hfinds⟩, hrender⟩
  · rintro ⟨shown, ⟨hparse, pinned, index, x, hpinned, hselect, hrenderer, hfinds⟩, rfl⟩
    rw [hparse]
    dsimp only
    refine resolve_fst_eq_ok_iff.mpr ⟨pinned, index, x, shown.fragment, hpinned, hselect, ?_, ?_⟩
    · exact Extractor.extract_eq_ok_iff.mpr ⟨shown.origin, hfinds, rfl⟩
    · rw [← hrenderer]
      rfl

/-- What an engine answers is made of whole lines. -/
theorem getLast?_of_answer_eq_ok {line rendered : Text} (h : engine.answer store line = .ok rendered) :
    rendered.getLast? = some '\n' := by
  obtain ⟨shown, -, rfl⟩ := answer_eq_ok_iff.mp h
  rw [Shown.rendered_eq]
  exact List.getLast?_concat

end Engine

end Excerpt
