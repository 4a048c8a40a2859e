import Excerpt.Proofs.Engine.View
import Mathlib.Data.List.Perm.Basic
import Mathlib.Logic.Function.Basic

/-!
# Excerpt — what an engine remembers, and how often it reads

Over a store that does not change, what a directive asks for depends on the directive alone, and what is asked for
changes what is remembered in one way in any order: a file that can be outlined is read at the first request for
it, any other one at each.

* **`SourceMemory`**, **`Engine.memory`** — what the extractors remember under each name, and how often each of
  them has read.
* **`SourceMemory.look_comm`**, **`ExtractorMemory.serve_comm`** — the order of two requests does not matter.
* **`Engine.memory_render`** — a directive serves at most one request, which the view of the engine determines.
* **`Engine.memory_renderAll`**, **`Engine.memory_renderAll_perm`** — so neither does the order of directives.
-/

namespace Excerpt

/-! ## Source files -/

/-- How often a file was read, and the source file that is remembered under each name. -/
@[ext]
structure SourceMemory where
  reads : Nat
  file : Text → Option SourceFile

namespace SourceMemory

variable (store : Store)

/-- The memory after a file was looked up. -/
def look (source : Text) (m : SourceMemory) : SourceMemory :=
  match m.file source with
  | some _ => m
  | none =>
    match SourceExtractor.readNow store source with
    | .error _ => { m with reads := m.reads + 1 }
    | .ok file => ⟨m.reads + 1, Function.update m.file source (some file)⟩

/-- **The order in which files are looked up does not matter.** -/
theorem look_comm (m : SourceMemory) (source other : Text) :
    (m.look store source).look store other = (m.look store other).look store source := by
  by_cases heq : source = other
  · rw [heq]
  · -- what is remembered under one name does not tell of the other
    have hother := Ne.symm heq
    unfold look
    cases hs : m.file source <;> cases ho : m.file other <;>
      cases SourceExtractor.readNow store source <;> cases SourceExtractor.readNow store other <;>
      simp [hs, ho, Function.update_of_ne heq, Function.update_of_ne hother, Function.update_comm heq]

end SourceMemory

/-- What an extraction from source files remembers. -/
def SourceExtractor.memory (x : SourceExtractor) : SourceMemory :=
  ⟨x.reads, fun source => x.cache.lookup source⟩

theorem SourceExtractor.memory_file (store : Store) (x : SourceExtractor) (source : Text) :
    (x.file store source).2.memory = x.memory.look store source := by
  rcases file_cases store x source with ⟨file, hsome, hfile⟩ | ⟨e, hnone, hread, hfile⟩ |
    ⟨file, hnone, hread, hfile⟩
  · simp [hfile, memory, SourceMemory.look, hsome]
  · simp [hfile, memory, SourceMemory.look, hnone, hread]
  · have hfun : (fun other => ((source, file) :: x.cache).lookup other) =
        Function.update (fun other => x.cache.lookup other) source (some file) := by
      funext other
      rw [List.lookup_cons, Function.update_apply]
      by_cases heq : other = source
      · simp [heq]
      · simp [heq, beq_eq_false_iff_ne.mpr heq]
    simp [hfile, memory, SourceMemory.look, hnone, hread, hfun]

/-! ## Extractors -/

/-- What an extractor is asked for. -/
structure Request where
  source : Text
  name : Text
  options : Options

/-- What an extractor remembers. -/
inductive ExtractorMemory where
  | sourceFiles (memory : SourceMemory)
  | benchmark (reads : Nat)

/-- How often the extractor has read. -/
def ExtractorMemory.reads : ExtractorMemory → Nat
  | sourceFiles memory => memory.reads
  | benchmark reads => reads

/-- The memory after a request. -/
def ExtractorMemory.serve (store : Store) (r : Request) : ExtractorMemory → ExtractorMemory
  | sourceFiles memory =>
    .sourceFiles (if SourceExtractor.looksUp store r.source r.options then memory.look store r.source else memory)
  | benchmark reads =>
    .benchmark (if (Benchmark.extract store r.source r.name r.options).2 then reads + 1 else reads)

/-- **The order of two requests does not matter.** -/
theorem ExtractorMemory.serve_comm (store : Store) (r r' : Request) (m : ExtractorMemory) :
    (m.serve store r).serve store r' = (m.serve store r').serve store r := by
  cases m with
  | sourceFiles memory =>
    unfold serve
    dsimp only
    split <;> split <;> first | rfl | rw [SourceMemory.look_comm]
  | benchmark reads =>
    unfold serve
    dsimp only
    split <;> split <;> rfl

/-- What an extractor remembers. -/
def Extractor.memory : Extractor → ExtractorMemory
  | sourceFiles x => .sourceFiles x.memory
  | benchmark reads => .benchmark reads

theorem Extractor.reads_memory (x : Extractor) : x.memory.reads = x.reads := by
  cases x <;> rfl

theorem Extractor.memory_extract (store : Store) (x : Extractor) (r : Request) :
    (x.extract store r.source r.name r.options).2.memory = x.memory.serve store r := by
  cases x with
  | sourceFiles x =>
    show ExtractorMemory.sourceFiles (x.extract store r.source r.name r.options).2.memory = _
    rw [SourceExtractor.extract_snd]
    unfold memory ExtractorMemory.serve
    dsimp only
    split
    · rw [SourceExtractor.memory_file]
    · rfl
  | benchmark reads => rfl

/-! ## Engines -/

namespace Engine

variable (store : Store)

/-- What the extractors of the engine remember, in order. -/
def memory (engine : Engine) : List ExtractorMemory := engine.extractors.map Extractor.memory

/-- The extractor that the directive on a line asks, by its index, and what it is asked for. -/
def request? (engine : Engine) (line : Text) : Option (Nat × Request) :=
  match Directive.parse line with
  | .error _ => none
  | .ok d =>
    match pinnedRenderer d, engine.select store d with
    | .ok _, .ok (index, _) => some (index, ⟨d.source, d.name, d.importerOptions⟩)
    | _, _ => none

variable {store}

/-- Engines with one view ask for the same. -/
theorem request?_eq_of_view_eq {engine other : Engine} (h : engine.view store = other.view store) :
    engine.request? store = other.request? store := by
  funext line
  unfold request?
  cases Directive.parse line with
  | error e => rfl
  | ok d =>
    have hselect := select_eq_of_view_eq h d
    revert hselect
    dsimp only
    cases pinnedRenderer d with
    | error e => exact fun _ => rfl
    | ok pinned =>
      cases engine.select store d with
      | error e =>
        cases other.select store d with
        | error e' => exact fun _ => rfl
        | ok found => simp [Except.map]
      | ok found =>
        cases other.select store d with
        | error e => simp [Except.map]
        | ok found' =>
          intro hselect
          have hpair : (found.1, found.2.view store) = (found'.1, found'.2.view store) :=
            Except.ok.inj hselect
          have hindex : found.1 = found'.1 := (Prod.mk.inj hpair).1
          simp [hindex]

variable (store)

/-- The memory of an engine after the extractor at an index was asked. -/
def serve (request : Option (Nat × Request)) (memory : List ExtractorMemory) : List ExtractorMemory :=
  match request with
  | none => memory
  | some (index, r) => memory.modify index (ExtractorMemory.serve store r)

theorem serve_comm (memory : List ExtractorMemory) (request request' : Option (Nat × Request)) :
    serve store request' (serve store request memory) =
      serve store request (serve store request' memory) := by
  cases request with
  | none => rfl
  | some asked =>
    cases request' with
    | none => rfl
    | some asked' =>
      obtain ⟨index, r⟩ := asked
      obtain ⟨index', r'⟩ := asked'
      unfold serve
      dsimp only
      by_cases heq : index = index'
      · -- one extractor gets both requests
        rw [heq, List.modify_modify_eq, List.modify_modify_eq]
        congr 1
        funext m
        exact ExtractorMemory.serve_comm store r r' m
      · exact List.modify_modify_ne _ _ _ heq

/-- **A directive serves its request, if it has one, and nothing else.** -/
theorem memory_render (engine : Engine) (line : Text) :
    (engine.render store line).2.memory = serve store (engine.request? store line) engine.memory := by
  unfold render request?
  cases Directive.parse line with
  | error e => rfl
  | ok d =>
    dsimp only
    unfold resolve
    cases pinnedRenderer d with
    | error e => rfl
    | ok pinned =>
      cases hselect : engine.select store d with
      | error e => rfl
      | ok found =>
        obtain ⟨index, x⟩ := found
        have hget := getElem?_of_select hselect
        have hextract := Extractor.memory_extract store x ⟨d.source, d.name, d.importerOptions⟩
        show (engine.extractors.set index _).map Extractor.memory =
          (engine.extractors.map Extractor.memory).modify index _
        rw [List.map_set, hextract, List.modify_eq_set_getElem?, List.getElem?_map, hget]
        rfl

/-- The engine after the directives on some lines were carried out. -/
def renderAll (engine : Engine) (lines : List Text) : Engine :=
  lines.foldl (fun engine line => (engine.render store line).2) engine

theorem view_renderAll (engine : Engine) (lines : List Text) :
    (engine.renderAll store lines).view store = engine.view store := by
  induction lines generalizing engine with
  | nil => rfl
  | cons line lines ih => exact (ih _).trans (view_render store engine line)

/-- **The directives serve their requests**, which are those of the engine at the start. Induction on the lines. -/
theorem memory_renderAll (engine : Engine) (lines : List Text) :
    (engine.renderAll store lines).memory =
      lines.foldl (fun memory line => serve store (engine.request? store line) memory) engine.memory := by
  induction lines generalizing engine with
  | nil => rfl
  | cons line lines ih =>
    have hsame := request?_eq_of_view_eq (view_render store engine line)
    show ((engine.render store line).2.renderAll store lines).memory = _
    rw [ih, hsame, memory_render]
    rfl

/-- **The order in which directives are carried out does not matter for what is remembered and read.** -/
theorem memory_renderAll_perm (engine : Engine) {lines lines' : List Text} (h : lines.Perm lines') :
    (engine.renderAll store lines).memory = (engine.renderAll store lines').memory := by
  rw [memory_renderAll, memory_renderAll]
  have hcomm : RightCommutative fun memory line => serve store (engine.request? store line) memory :=
    ⟨fun memory _ _ => serve_comm store memory _ _⟩
  exact h.foldl_eq _

end Engine

end Excerpt
