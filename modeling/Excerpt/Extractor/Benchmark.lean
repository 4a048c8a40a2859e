import Excerpt.Error
import Excerpt.Number.Binary64
import Excerpt.Renderer
import Excerpt.Store.Locator

/-!
Extraction from benchmark reports: the report of a benchmark class below the newest runtime directory of
a project's release output.
-/

namespace Excerpt

namespace Benchmark

/-- The directory below which the reports of a project are. -/
def releaseDirectory (source : Text) : Text := Locator.join source "bin/Release".toList

/-- The version of the runtime that a directory is named for, as in `net8.0`. -/
def runtimeVersion? (directory : Text) : Option Binary64 :=
  ("net".toList.isPrefixOf? directory).bind Binary64.read?

/-- The later of two versioned directories, the second one where the versions are equal. -/
def later (a b : Binary64 × Text) : Binary64 × Text :=
  if b.1.orderKey < a.1.orderKey then a else b

/-- The directory of the newest runtime; directories that are named for none do not count. -/
def newest? (directories : List Text) : Option Text :=
  let versioned := directories.filterMap fun d =>
    (runtimeVersion? (Locator.fileName d)).map fun version => (version, d)
  match versioned with
  | [] => none
  | first :: rest => some (rest.foldl later first).2

def reportPath (directory source name : Text) : Text :=
  directory ++ "/BenchmarkDotNet.Artifacts/results/".toList ++ Locator.fileName source ++
    '.' :: name ++ "-report-github.md".toList

/-- The path of the report of a benchmark class, which exists. -/
def existingReport (store : Store) (source name : Text) : Except SourceError Text :=
  let release := releaseDirectory source
  if ! store.directoryExists release then .error (.reportNotFound release)
  else
    match store.subdirectories release "net*".toList with
    | .error e => .error e
    | .ok directories =>
      match newest? directories with
      | none => .error (.reportNotFound release)
      | some directory =>
        let path := reportPath directory source name
        if store.fileExists path then .ok path else .error (.reportNotFound path)

/-- The report without all up to its second fence; with fewer fences it is kept whole. -/
def dropEnvironment (report : Text) : Text :=
  match Text.splitAt? fence report with
  | none => report
  | some (_, inside) =>
    match Text.splitAt? fence inside with
    | none => report
    | some (_, behind) => behind

/-- The content that is taken from a report. The rendering ends its last line. -/
def content (includeEnvironment : Bool) (report : Text) : Text :=
  Text.dropEndWhile (fun c => c = '\r' || c = '\n')
    (if includeEnvironment then report else Text.trimStart (dropEnvironment report))

/-- Takes the report of a benchmark class of a project, and says whether a file was read. -/
def extract (store : Store) (source name : Text) (options : Options) :
    Except Error Fragment × Bool :=
  match options.getBoolean "env".toList false with
  | .error e => (.error (.option e), false)
  | .ok includeEnvironment =>
    match existingReport store source name with
    | .error e => (.error (.unavailable e), false)
    | .ok path =>
      match store.read path with
      | .error e => (.error (.unavailable e), true)
      | .ok report =>
        (.ok { source, name, lines := none
               content := content includeEnvironment report
               kind := "markdown".toList }, true)

end Benchmark

end Excerpt
