import Excerpt.Diagnostic
import Excerpt.Glob.Pattern

/-!
Settings of a project: where its sources lie and which of its files are documents.
-/

namespace Excerpt

/-- The settings. `documents` are glob patterns of further documents, `exclude` are ignore rules, and files
of more than `maxSize` bytes are passed over. -/
structure Settings where
  sourceRoot : Option Text
  documents : List Text
  exclude : List Text
  maxSize : Nat
  disableIgnoreFile : Bool
  deriving DecidableEq, Repr

/-- Files may have ten mebibytes unless the settings say otherwise. -/
def Settings.defaultMaxSize : Nat := 10 * 1024 * 1024

/-- The settings of a project that has none of its own. -/
def Settings.default : Settings := ⟨none, [], [], defaultMaxSize, false⟩

/-- Why settings cannot be used: they cannot be read, or a pattern in them is none. Of an ignore rule,
`rule` is the part that counts. -/
inductive SettingsError where
  | malformed
  | documentPattern (pattern : Text) (cause : GlobError)
  | excludePattern (pattern rule : Text) (cause : GlobError)
  deriving DecidableEq, Repr

def SettingsError.message : SettingsError → String
  | malformed => "they do not have the form that settings have"
  | documentPattern pattern cause =>
    "invalid document pattern `" ++ shown pattern ++ "`: error parsing glob '" ++ shown pattern ++ "': " ++
      cause.message
  | excludePattern pattern rule cause =>
    "invalid exclude pattern `" ++ shown pattern ++ "`: error parsing glob '" ++ shown rule ++ "': " ++
      cause.message

def SettingsError.diagnostic (e : SettingsError) : Diagnostic :=
  ⟨"failed to parse config file: " ++ e.message, "snippet_link::config_parse",
    some "check that snippet-link.toml is valid TOML"⟩

end Excerpt
