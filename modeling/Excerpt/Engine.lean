import Excerpt.Directive.Parse
import Excerpt.Extractor.Basic

/-!
Engines: what carries out the directives of documents. An engine keeps its extractors, and with them
what they have read, from one directive to the next.
-/

namespace Excerpt

/-- Extractors in the order in which they are tried. -/
structure Engine where
  extractors : List Extractor
  deriving DecidableEq, Repr

namespace Engine

/-- An engine that has read nothing yet: source files are tried first, then benchmark reports. -/
def fresh : Engine := ⟨[.sourceFiles .fresh, .benchmark 0]⟩

def reads (engine : Engine) : Nat := engine.extractors.foldr (fun x n => x.reads + n) 0

def pinnedRenderer (d : Directive) : Except Error (Option Renderer) :=
  match d.formatter with
  | none => .ok none
  | some choice =>
    match Renderer.ofName? choice.name with
    | some renderer => .ok (some renderer)
    | none => .error (.unknownFormatter choice.name)

/-- The first of the extractors that can handle the source, with its index, which is counted from
`index`; or the reasons of all of them. -/
def probe (store : Store) (d : Directive) (index : Nat) :
    List Extractor → Except (List SourceError) (Nat × Extractor)
  | [] => .error []
  | x :: rest =>
    match x.canHandle store d.source d.name with
    | .ok () => .ok (index, x)
    | .error reason => (probe store d (index + 1) rest).mapError (reason :: ·)

/-- The extractor that a directive names, or else the first one that can handle its source, with its
index. -/
def select (engine : Engine) (store : Store) (d : Directive) : Except Error (Nat × Extractor) :=
  match d.importer with
  | some choice =>
    match engine.extractors.findIdx? fun x => Text.eqIgnoreCase x.name choice.name with
    | none => .error (.unknownImporter choice.name)
    | some index =>
      match engine.extractors[index]? with
      | none => .error (.unknownImporter choice.name)
      | some x => .ok (index, x)
  | none => (probe store d 0 engine.extractors).mapError (.noImporter d.source)

def resolve (engine : Engine) (store : Store) (d : Directive) : Except Error Text × Engine :=
  match pinnedRenderer d with
  | .error e => (.error e, engine)
  | .ok pinned =>
    match engine.select store d with
    | .error e => (.error e, engine)
    | .ok (index, x) =>
      -- a formatter that the directive names wins over what the extractor prefers
      let renderer := pinned.getD x.preferredRenderer
      let (result, x) := x.extract store d.source d.name d.importerOptions
      (result.map fun fragment => renderer.render fragment d.formatterOptions,
        ⟨engine.extractors.set index x⟩)

/-- The text that the directive on a trimmed line asks for. -/
def render (engine : Engine) (store : Store) (line : Text) : Except Error Text × Engine :=
  match Directive.parse line with
  | .error e => (.error (.directive e), engine)
  | .ok d => engine.resolve store d

end Engine

end Excerpt
