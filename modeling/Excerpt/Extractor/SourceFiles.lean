import Excerpt.Error
import Excerpt.Renderer
import Excerpt.Source.Locate
import Excerpt.Store.Locator

/-!
Extraction from source files. A file is read and outlined once; whatever becomes of it later, excerpts
come from what it was then.
-/

namespace Excerpt

/-- The source files read so far, by the names under which directives gave them, and how often a file
was read. -/
structure SourceExtractor where
  cache : List (Text × SourceFile)
  reads : Nat
  deriving DecidableEq, Repr

namespace SourceExtractor

def fresh : SourceExtractor := ⟨[], 0⟩

/-- Whether the name ends in the extension of C# files, in any case. -/
def hasExtension (source : Text) : Bool :=
  (Text.splitLast? (· = '.') source).any fun (_, extension) =>
    Text.eqIgnoreCase extension SourceFile.language

def canHandle (store : Store) (source : Text) : Except SourceError Unit :=
  if ! hasExtension source then .error (.unsupported source)
  else if ! store.fileExists source then .error (.notFound source)
  else .ok ()

/-- The source file of the given name, read now if it was not before. -/
def file (x : SourceExtractor) (store : Store) (source : Text) :
    Except Error SourceFile × SourceExtractor :=
  match x.cache.lookup source with
  | some file => (.ok file, x)
  | none =>
    let x := { x with reads := x.reads + 1 }
    match store.read source with
    | .error e => (.error (.unavailable e), x)
    | .ok text =>
      match SourceFile.parse? text with
      | none => (.error (.noOutline source), x)
      -- only a file that was read and outlined is remembered
      | some file => (.ok file, { x with cache := (source, file) :: x.cache })

/-- The reason why there is no excerpt, for the author of the directive. -/
def explain (source name : Text) : Unlocated → Error
  | .notFound => .excerptNotFound name source
  | .unclosed => .missingClosingMarker name source

/-- Takes the excerpt of the given name out of a source file. -/
def extract (x : SourceExtractor) (store : Store) (source name : Text) (options : Options) :
    Except Error Fragment × SourceExtractor :=
  match options.getBoolean "body-only".toList false with
  | .error e => (.error (.option e), x)
  | .ok bodyOnly =>
    match canHandle store source with
    | .error e => (.error (.unavailable e), x)
    | .ok () =>
      match x.file store source with
      | (.error e, x) => (.error e, x)
      | (.ok file, x) => ((file.extract source name bodyOnly).mapError (explain source name), x)

end SourceExtractor

end Excerpt
