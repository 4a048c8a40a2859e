import Excerpt.Diagnostic

/-!
Why a line is no directive.
-/

namespace Excerpt

/-- The rule that a line breaks, the first one in the order of the constructors but for the last four:
of these a parameter breaks the first in the order `malformedParameter`, `missingQuery`,
`missingValue`, `unknownKey`. -/
inductive DirectiveError where
  | missingOpening
  | missingClosing
  | missingSource
  | missingName
  | parametersNotEnclosed
  | malformedParameter
  | missingValue (key : Text)
  | missingQuery (key : Text)
  | unknownKey (key : Text)
  deriving DecidableEq, Repr

namespace DirectiveError

def diagnostic : DirectiveError → Diagnostic
  | missingOpening =>
    ⟨"Snippet links need to start with '<!-- begin-snippet: '",
      "snippet_link::directive::missing_prefix", none⟩
  | missingClosing =>
    ⟨"Snippet link must end with ' -->'.", "snippet_link::directive::missing_suffix", none⟩
  | missingSource =>
    ⟨"Snippet expects a source file followed by a space.",
      "snippet_link::directive::missing_source",
      some "write the directive as `<!-- begin-snippet: path/to/File.cs SnippetName -->`"⟩
  | missingName => ⟨"Snippet name is missing.", "snippet_link::directive::missing_name", none⟩
  | parametersNotEnclosed =>
    ⟨"SnippetLink parameters must be enclosed in round brackets '()'.",
      "snippet_link::directive::unbalanced_parameters",
      some "wrap parameters like `(importer:cs;formatter:raw)`"⟩
  | malformedParameter =>
    ⟨"SnippetLink parameters must be in the format key:value[?queryString].",
      "snippet_link::directive::malformed_parameter", none⟩
  | missingValue key =>
    ⟨"SnippetLink parameter '" ++ shown key ++ "' is missing a value.",
      "snippet_link::directive::missing_value", none⟩
  | missingQuery key =>
    ⟨"Expected query string for SnippetLink parameter '" ++ shown key ++ "' following after '?'.",
      "snippet_link::directive::missing_query", none⟩
  | unknownKey key =>
    ⟨"Unknown SnippetLink parameter key '" ++ shown key ++
        "'. Expected 'importer' or 'formatter'.",
      "snippet_link::directive::unknown_key", none⟩

end DirectiveError

end Excerpt
