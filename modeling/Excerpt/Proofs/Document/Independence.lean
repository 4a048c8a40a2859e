import Excerpt.Proofs.Document.Failures
import Excerpt.Proofs.Engine.Memory

/-!
# Excerpt — documents do not influence each other

Documents that are processed one after the other share an engine, and with it the source files that it has read.
Over a store that does not change none of them can tell: what becomes of a document, and which directives are
carried out for it, depend on what the engine takes its excerpts from, and no document changes that.

* **`exists_processLines_eq`**, **`exists_sync_eq`** — what processing gives is the same for all engines with one
  view, and behind it each of them has carried out the same directives.
* **`syncEach_eq_map`** — each document of a sequence has the status that it has alone.
* **`syncEach_independent`** — in any order of the documents, and as much is read in each.
-/

namespace Excerpt

namespace Engine

variable {store : Store}

theorem renderAll_cons {engine engine' : Engine} {line : Text} {result : Except Error Text}
    (h : engine.render store line = (result, engine')) (lines : List Text) :
    engine.renderAll store (line :: lines) = engine'.renderAll store lines := by
  show (engine.render store line).2.renderAll store lines = _
  rw [h]

theorem renderAll_append (engine : Engine) (lines lines' : List Text) :
    engine.renderAll store (lines ++ lines') = (engine.renderAll store lines).renderAll store lines' :=
  List.foldl_append

/-- An engine with the same view gives the same answer, and has the same view behind it. -/
theorem exists_render_eq {engine other engine' : Engine} {line : Text} {result : Except Error Text}
    (hview : other.view store = engine.view store) (h : engine.render store line = (result, engine')) :
    ∃ other', other.render store line = (result, other') ∧ other'.view store = engine'.view store := by
  have hanswer : other.answer store line = result := by
    rw [answer_eq_of_view_eq hview]
    exact congrArg Prod.fst h
  have hengine := view_render store engine line
  rw [h] at hengine
  refine ⟨_, Prod.ext hanswer rfl, ?_⟩
  rw [view_render, hview, hengine]

end Engine

namespace Document

variable (store : Store)

/-- **What processing lines gives depends on the view of the engine alone**, and so do the directives that are
carried out. One case for each way to go on. -/
theorem exists_processLines_eq (engine : Engine) (fenced : Bool) (number : Nat) (lines : List Line) :
    ∃ (p : Processed) (asked : List Text), ∀ other : Engine, other.view store = engine.view store →
      processLines store other fenced number lines = { p with engine := other.renderAll store asked } := by
  fun_induction processLines store engine fenced number lines with
  | case1 =>
    refine ⟨⟨[], false, [], .fresh⟩, [], fun other _ => ?_⟩
    rw [processLines]
    rfl
  | case2 engine fenced number line rest hfence ih =>
    obtain ⟨p, asked, h⟩ := ih
    refine ⟨p.keep line.written, asked, fun other hother => ?_⟩
    rw [processLines, if_pos hfence, h other hother]
    rfl
  | case3 engine fenced number line rest hfence hshield ih =>
    obtain ⟨p, asked, h⟩ := ih
    refine ⟨p.keep line.written, asked, fun other hother => ?_⟩
    rw [processLines, if_neg hfence, if_pos hshield, h other hother]
    rfl
  | case4 engine fenced number line rest hfence hlive e engine' hrender ih =>
    -- behind the directive both engines are others, with one view again
    obtain ⟨p, asked, h⟩ := ih
    refine ⟨(p.fail number e).keep line.written, line.trimmed :: asked, fun other hother => ?_⟩
    obtain ⟨other', hsame, hview⟩ := Engine.exists_render_eq hother hrender
    rw [Engine.renderAll_cons hsame, processLines, if_neg hfence, if_neg hlive, hsame]
    dsimp only
    rw [h other' hview]
    rfl
  | case5 engine fenced number line rest hfence hlive rendered engine' hrender hfind ih =>
    obtain ⟨p, asked, h⟩ := ih
    refine ⟨(p.fail number (.missingEndMarker number)).keep line.written, line.trimmed :: asked,
      fun other hother => ?_⟩
    obtain ⟨other', hsame, hview⟩ := Engine.exists_render_eq hother hrender
    rw [Engine.renderAll_cons hsame, processLines, if_neg hfence, if_neg hlive, hsame]
    dsimp only
    rw [hfind]
    dsimp only
    rw [h other' hview]
    rfl
  | case6 engine fenced number line rest hfence hlive rendered engine' hrender i hfind closing ih =>
    obtain ⟨p, asked, h⟩ := ih
    refine ⟨(p.replace line.terminator closing rendered).keep line.written, line.trimmed :: asked,
      fun other hother => ?_⟩
    obtain ⟨other', hsame, hview⟩ := Engine.exists_render_eq hother hrender
    rw [Engine.renderAll_cons hsame, processLines, if_neg hfence, if_neg hlive, hsame]
    dsimp only
    rw [hfind]
    dsimp only
    rw [h other' hview]
    rfl

/-- **What becomes of a document depends on the view of the engine alone.** -/
theorem exists_sync_eq (engine : Engine) (text : Text) :
    ∃ asked : List Text, ∀ other : Engine, other.view store = engine.view store →
      sync store other text = ((sync store engine text).1, other.renderAll store asked) := by
  obtain ⟨p, asked, h⟩ := exists_processLines_eq store engine false 1 (Text.lines text)
  refine ⟨asked, fun other hother => ?_⟩
  unfold sync processInto process
  rw [h other hother, h engine rfl]
  cases hfail : p.failures.isEmpty <;> simp [hfail]

/-- Processes documents one after the other. -/
def syncEach (engine : Engine) : List Text → List Status × Engine
  | [] => ([], engine)
  | text :: rest =>
    let (status, engine) := sync store engine text
    let (statuses, engine) := syncEach engine rest
    (status :: statuses, engine)

variable {store}

/-- **Each document of a sequence has the status that it has alone**, and the engine carries out the directives of
all of them. Induction on the documents; each finds the view of the first engine. -/
theorem syncEach_eq_map {engine : Engine} {asked : Text → List Text}
    (hasked : ∀ text, ∀ other : Engine, other.view store = engine.view store →
      sync store other text = ((sync store engine text).1, other.renderAll store (asked text)))
    (texts : List Text) {other : Engine} (hother : other.view store = engine.view store) :
    syncEach store other texts =
      (texts.map fun text => (sync store engine text).1, other.renderAll store (texts.flatMap asked)) := by
  induction texts generalizing other with
  | nil => rfl
  | cons text rest ih =>
    have hview : (other.renderAll store (asked text)).view store = engine.view store :=
      (Engine.view_renderAll store other (asked text)).trans hother
    rw [syncEach, hasked text other hother]
    dsimp only
    rw [ih hview, List.flatMap_cons, Engine.renderAll_append]
    rfl

variable (store)

/-- **Documents do not influence each other.** In a sequence of documents each has the status that it has alone, so
in any other order they have the same statuses; and each extractor has read as often then. -/
theorem syncEach_independent (texts : List Text) :
    (syncEach store .fresh texts).1 = (texts.map fun text => (sync store .fresh text).1) ∧
      ∀ other, other.Perm texts →
        (other.zip (syncEach store .fresh other).1).Perm (texts.zip (syncEach store .fresh texts).1) ∧
        (syncEach store .fresh other).2.extractors.map Extractor.reads =
          (syncEach store .fresh texts).2.extractors.map Extractor.reads := by
  choose asked hasked using exists_sync_eq store Engine.fresh
  have hall : ∀ texts, syncEach store .fresh texts =
      (texts.map fun text => (sync store .fresh text).1,
        Engine.fresh.renderAll store (texts.flatMap asked)) :=
    fun texts => syncEach_eq_map hasked texts rfl
  -- the number of reads is a part of what is remembered, which the order of the directives does not change
  have hreads : ∀ engine : Engine, engine.extractors.map Extractor.reads =
      engine.memory.map ExtractorMemory.reads := by
    intro engine
    rw [Engine.memory, List.map_map]
    exact List.map_congr_left fun x _ => (Extractor.reads_memory x).symm
  refine ⟨by rw [hall], fun other hperm => ⟨?_, ?_⟩⟩
  · have hzip : ∀ texts : List Text, texts.zip (syncEach store .fresh texts).1 =
        texts.map fun text => (text, (sync store .fresh text).1) := by
      intro texts
      rw [hall]
      simpa using List.zip_map' (f := id) (g := fun text => (sync store .fresh text).1) (l := texts)
    rw [hzip, hzip]
    exact hperm.map _
  · have hasked := hperm.flatMap_right asked
    rw [hall, hall, hreads, hreads, Engine.memory_renderAll_perm store _ hasked]

/-- Three documents, one of which fails, in one order and the other one. -/
theorem syncEach_independent_reversed :
    (syncEach oneTypeStore .fresh [failingAndLive, shownAndLive, []]).1 =
        [failingAndLive, shownAndLive, []].map (fun text => (sync oneTypeStore .fresh text).1) ∧
      (syncEach oneTypeStore .fresh [[], shownAndLive, failingAndLive]).2.extractors.map Extractor.reads = [1, 0] := by
  obtain ⟨hstatuses, hperm⟩ := syncEach_independent oneTypeStore [failingAndLive, shownAndLive, []]
  have hreads : (syncEach oneTypeStore .fresh [failingAndLive, shownAndLive, []]).2.extractors.map Extractor.reads =
      [1, 0] := by
    decide +kernel
  exact ⟨hstatuses, (hperm _ (List.reverse_perm _)).2.trans hreads⟩

end Document

end Excerpt
