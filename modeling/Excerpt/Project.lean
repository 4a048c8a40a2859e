import Excerpt.Discovery.Walk
import Excerpt.Document
import Excerpt.Settings.Read
import Excerpt.Tree.Store

/-!
Projects: a directory with settings, documents, and the sources that these take their excerpts from.
-/

namespace Excerpt

/-- A project lies in the directory that the written path `root` names, as seen from a directory of the
tree. -/
structure Project where
  tree : Tree
  directory : Path
  root : Text

/-- Why the documents of a project cannot be processed. -/
inductive ProjectError where
  | settings (cause : SettingsError)
  | file (fault : FileFault)
  | linkCycle (cause : LinkCycle)
  | noOutline (source : Text)
  deriving DecidableEq, Repr

def ProjectError.diagnostic : ProjectError → Diagnostic
  | settings cause => cause.diagnostic
  | file fault => (SourceError.file fault).diagnostic
  | linkCycle cause => cause.diagnostic
  | noOutline source => (Error.noOutline source).diagnostic

/-- What became of a document of a project. -/
structure DocumentReport where
  path : Path
  text : Text
  status : Document.Status
  deriving DecidableEq, Repr

namespace Document.Status

/-- The new text of a document that is to be written. -/
def content? : Status → Option Text
  | .updated content => some content
  | _ => none

/-- The failures of the document. -/
def failures : Status → List LineFailure
  | .failed failures => failures
  | _ => []

/-- Whether the document has a directive that cannot be carried out. -/
def isFailed : Status → Bool
  | .failed _ => true
  | _ => false

/-- A source without an outline that an excerpt of the document was to be taken from. -/
def noOutline? (status : Status) : Option Text :=
  status.failures.findSome? fun failure =>
    match failure.error with
    | .noOutline source => some source
    | _ => none

end Document.Status

namespace Project

/-- A written path as seen from the project's directory. -/
def within (p : Project) (sub : Text) : Text := Path.joinWritten p.root sub

/-- Where settings may stand, the first one that is a file being the one that counts. -/
def settingsPlaces : List String := ["snippet-link.toml", ".snippet-link.toml", ".config/snippet-link.toml"]

/-- The path of the settings file. -/
def settingsFile? (p : Project) : Option Text :=
  (settingsPlaces.map String.toList).find? fun place => p.tree.hasFile p.directory (p.within place)

/-- The settings of the project, if it has any. -/
def ownSettings (p : Project) : Except ProjectError (Option Settings) :=
  match p.settingsFile? with
  | none => .ok none
  | some place =>
    match p.tree.readText p.directory (p.within place) with
    | .error fault => .error (.file fault)
    | .ok s => ((Settings.parse s).map some).mapError .settings

/-- The settings that hold for the project. -/
def settings (p : Project) : Except ProjectError Settings :=
  p.ownSettings.map fun settings => settings.getD .default

/-- The written path of the directory that sources lie in. -/
def sourceRoot (p : Project) (settings : Settings) : Text :=
  match settings.sourceRoot with
  | none => p.root
  | some sub => p.within sub

/-- Where the sources of documents are read from. -/
def store (p : Project) (settings : Settings) : Store := p.tree.store p.directory (p.sourceRoot settings)

/-- Processes documents one after the other, with one engine for all of them. What is not UTF-8 is no
document; a source without an outline ends it all. -/
def syncEach (p : Project) (store : Store) (engine : Engine) :
    List Path → Except ProjectError (List DocumentReport)
  | [] => .ok []
  | path :: rest =>
    match p.tree.readText p.directory (p.within path.text) with
    -- a file that is not UTF-8 is passed over without a report
    | .error .notText => p.syncEach store engine rest
    | .error fault => .error (.file fault)
    | .ok text =>
      let (status, engine) := Document.sync store engine text
      match status.noOutline? with
      | some source => .error (.noOutline source)
      | none => (p.syncEach store engine rest).map (⟨path, text, status⟩ :: ·)

/-- Processes all documents of the project and writes none of them. -/
def sync (p : Project) (settings : Settings) : Except ProjectError (List DocumentReport) := do
  let selection ← (Selection.ofSettings settings).mapError .settings
  let paths ← (Discovery.documents p.tree p.directory p.root selection).mapError .linkCycle
  p.syncEach (p.store settings) .fresh paths

/-- The reports on documents that are to be written. -/
def updated (reports : List DocumentReport) : List DocumentReport :=
  reports.filter fun report => report.status.content?.isSome

/-- The tree after a document was written that is not as it should be. -/
def writeReport (p : Project) (report : DocumentReport) : Project :=
  match report.status.content? with
  | none => p
  | some content => { p with tree := p.tree.writeText p.directory (p.within report.path.text) content }

/-- The project after all documents that are not as they should be were written. -/
def write (p : Project) (reports : List DocumentReport) : Project := reports.foldl writeReport p

end Project

end Excerpt
