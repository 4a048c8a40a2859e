import Excerpt.Ignore
import Excerpt.Settings.Basic

/-!
Which files of a project are its documents.
-/

namespace Excerpt

/-- What makes a file a document: the shapes of the paths of documents that are no Markdown, the rules of
what is passed over, the greatest size, and whether the ignore file of the project counts. -/
structure Selection where
  documents : List Shape
  exclude : List IgnoreRule
  maxSize : Nat
  useIgnoreFile : Bool
  deriving DecidableEq, Repr

namespace Selection

def markdown : Selection := ⟨[], [], Settings.defaultMaxSize, true⟩

/-- The shapes of the patterns of documents. -/
def readDocuments : List Text → Except SettingsError (List Shape)
  | [] => .ok []
  | pattern :: rest =>
    match Glob.read false pattern with
    | .error cause => .error (.documentPattern pattern cause)
    | .ok items => (readDocuments rest).map (Glob.shape .all items :: ·)

/-- The rules that patterns of what is passed over stand for. -/
def readExclude : List Text → Except SettingsError (List IgnoreRule)
  | [] => .ok []
  | pattern :: rest =>
    match IgnoreRule.parse pattern with
    | .error e => .error (.excludePattern pattern e.rule e.cause)
    | .ok rule => (readExclude rest).map (rule.toList ++ ·)

def ofSettings (settings : Settings) : Except SettingsError Selection := do
  let documents ← readDocuments settings.documents
  let exclude ← readExclude settings.exclude
  return ⟨documents, exclude, settings.maxSize, ! settings.disableIgnoreFile⟩

/-- Whether the name is that of a directory which is never searched: one that is hidden or holds what
tools have made. -/
def isSkippedName (name : Text) : Bool :=
  name.head? = some '.' ||
    ["node_modules", "target", "bin", "obj"].any fun skipped => name = skipped.toList

def isMarkdownName (name : Text) : Bool :=
  match Path.extension? name with
  | some extension => ["md", "mdx", "markdown"].any fun known => extension = known.toList
  | none => false

/-- Whether a file at the path is a document by its name. -/
def accepts (selection : Selection) (path : Path) : Bool :=
  isMarkdownName (path.getLast?.getD []) ||
    selection.documents.any fun shape => shape.fits (Utf8.encode path.text)

end Selection

end Excerpt
