import Excerpt.Extractor.Benchmark
import Excerpt.Extractor.SourceFiles

/-!
Extractors: where excerpts come from. A directive names one, or the first that can handle its source is
taken.
-/

namespace Excerpt

/-- An extractor with what it remembers: the source files that it read, or the number of reports. -/
inductive Extractor where
  | sourceFiles (state : SourceExtractor)
  | benchmark (reads : Nat)
  deriving DecidableEq, Repr

namespace Extractor

def name : Extractor → Text
  | sourceFiles _ => "cs".toList
  | benchmark _ => "BenchmarkDotNet".toList

/-- The renderer that is used where the directive names none. -/
def preferredRenderer : Extractor → Renderer
  | sourceFiles _ => .codeBlock
  | benchmark _ => .raw

def reads : Extractor → Nat
  | sourceFiles state => state.reads
  | benchmark reads => reads

/-- Whether the source looks like something that the extractor understands, and exists. Nothing is
read. -/
def canHandle (x : Extractor) (store : Store) (source name : Text) : Except SourceError Unit :=
  match x with
  | sourceFiles _ => SourceExtractor.canHandle store source
  | benchmark _ => (Benchmark.existingReport store source name).map fun _ => ()

/-- Takes the excerpt of the given name out of a source. -/
def extract (x : Extractor) (store : Store) (source name : Text) (options : Options) :
    Except Error Fragment × Extractor :=
  match x with
  | sourceFiles state =>
    let (result, state) := state.extract store source name options
    (result, sourceFiles state)
  | benchmark reads =>
    let (result, read) := Benchmark.extract store source name options
    (result, benchmark (if read then reads + 1 else reads))

end Extractor

end Excerpt
