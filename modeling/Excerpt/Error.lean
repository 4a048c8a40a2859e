import Excerpt.Directive.Error
import Excerpt.Options
import Excerpt.Store.Basic

/-!
Why a directive of a document cannot be carried out.
-/

namespace Excerpt

inductive Error where
  | directive (cause : DirectiveError)
  | option (cause : OptionError)
  | unavailable (cause : SourceError)
  | excerptNotFound (name source : Text)
  | missingClosingMarker (name source : Text)
  | noOutline (source : Text)
  | unknownImporter (name : Text)
  | unknownFormatter (name : Text)
  | noImporter (source : Text) (reasons : List SourceError)
  | missingEndMarker (line : Nat)
  deriving DecidableEq, Repr

def Error.diagnostic : Error → Diagnostic
  | directive cause => cause.diagnostic
  | option cause => cause.diagnostic
  | unavailable cause => cause.diagnostic
  | excerptNotFound name source =>
    ⟨"Snippet '" ++ shown name ++ "' not found in file '" ++ shown source ++ "'.",
      "snippet_link::snippet_not_found",
      some ("mark the snippet with `#region " ++ shown name ++ "`, `// begin-snippet: " ++
        shown name ++ "` or use the dotted name of a declaration")⟩
  | missingClosingMarker name source =>
    ⟨"Snippet '" ++ shown name ++ "' is missing its closing comment or region in '" ++
        shown source ++ "'.",
      "snippet_link::missing_closing_marker",
      some "close the snippet with `#endregion` or `// end-snippet`"⟩
  | noOutline source =>
    ⟨"Source file '" ++ shown source ++ "' ends within the header of a namespace inside a type.",
      "snippet_link::no_outline", none⟩
  | unknownImporter name =>
    ⟨"Unknown importer '" ++ shown name ++ "'", "snippet_link::unknown_importer", none⟩
  | unknownFormatter name =>
    ⟨"Unknown formatter '" ++ shown name ++ "'", "snippet_link::unknown_formatter", none⟩
  | noImporter source reasons =>
    ⟨"No importer could handle the source file '" ++ shown source ++ "':\n" ++
        "\n".intercalate (reasons.map fun reason => reason.diagnostic.message),
      "snippet_link::no_importer", none⟩
  | missingEndMarker line =>
    ⟨"Missing end-snippet tag for snippet starting at line " ++ shown (digits line) ++ ".",
      "snippet_link::missing_end_marker",
      some "add `<!-- end-snippet -->` after the begin-snippet line"⟩

/-- A failure of the directive on a line of a document, counted from one. -/
structure LineFailure where
  line : Nat
  error : Error
  deriving DecidableEq, Repr

/-- What the author of a document is told about its failures. -/
def LineFailure.diagnostic (failures : List LineFailure) : Diagnostic :=
  ⟨"\n".intercalate (failures.map fun f =>
      "Line " ++ shown (digits f.line) ++ ": " ++ f.error.diagnostic.message),
    "snippet_link::document_failed", none⟩

end Excerpt
