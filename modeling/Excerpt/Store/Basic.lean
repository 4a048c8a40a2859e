import Excerpt.Diagnostic
import Excerpt.Glob.Pattern

/-!
Stores: where sources are read from.
-/

namespace Excerpt

inductive FileFault where
  | notText
  | isDirectory
  | notDirectory
  | missing
  | linkLoop
  | nameTooLong
  | nameWithNul
  deriving DecidableEq, Repr

def FileFault.message : FileFault → String
  | notText => "stream did not contain valid UTF-8"
  | isDirectory => "Is a directory (os error 21)"
  | notDirectory => "Not a directory (os error 20)"
  | missing => "No such file or directory (os error 2)"
  | linkLoop => "Too many levels of symbolic links (os error 40)"
  | nameTooLong => "File name too long (os error 36)"
  | nameWithNul => "file name contained an unexpected NUL byte"

/-- Why there is nothing to extract from. -/
inductive SourceError where
  | unsupported (source : Text)
  | notFound (source : Text)
  | reportNotFound (path : Text)
  | invalidGlob (pattern : Text) (cause : GlobError)
  | file (fault : FileFault)
  deriving DecidableEq, Repr

def SourceError.diagnostic : SourceError → Diagnostic
  | unsupported source =>
    ⟨"'" ++ shown source ++ "' not end with .cs", "snippet_link::unsupported_source", none⟩
  | notFound source =>
    ⟨"Source file '" ++ shown source ++ "' not found.", "snippet_link::source_not_found", none⟩
  | reportNotFound path =>
    ⟨"BenchmarkDotNet output file " ++ shown path ++ " not found.",
      "snippet_link::benchmark_report_not_found",
      some "run the benchmarks in Release mode with the GitHub markdown exporter enabled"⟩
  | invalidGlob pattern cause =>
    ⟨"invalid glob pattern `" ++ shown pattern ++ "`: " ++ cause.message,
      "snippet_link::invalid_glob", none⟩
  | file fault => ⟨fault.message, "snippet_link::io_error", none⟩

/-- The files that sources are read from, by their locators. `subdirectories` gives the directories
directly below one whose names match a glob pattern, in the order of their locators. -/
structure Store where
  fileExists : Text → Bool
  directoryExists : Text → Bool
  subdirectories : (path pattern : Text) → Except SourceError (List Text)
  read : Text → Except SourceError Text

end Excerpt
