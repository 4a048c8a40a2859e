import Excerpt.Proofs.Engine.View

/-!
# Excerpt — the file that an answer reads

To answer a line an engine looks at what is there, and reads one file at most. So two stores in which the same is
there, and that one file has the same content, give the same answer, however much the contents of other files differ.

* **`Store.Alike`** — the same files and directories are there; the contents of the files may differ.
* **`Engine.readFor?`** — the file that a line comes to read.
* **`Engine.answer_eq_of_alike`** — the answer depends on what is there and on that file.
-/

namespace Excerpt

/-- The same files and directories are there. -/
structure Store.Alike (store store' : Store) : Prop where
  files : store'.fileExists = store.fileExists
  directories : store'.directoryExists = store.directoryExists
  subdirectories : store'.subdirectories = store.subdirectories

/-- The file that the extractor comes to read for a directive. -/
def Extractor.readFor? (x : Extractor) (store : Store) (d : Directive) : Option Text :=
  match x with
  | sourceFiles _ => some d.source
  | benchmark _ => (Benchmark.existingReport store d.source d.name).toOption

/-- The file that the engine comes to read for a line. -/
def Engine.readFor? (engine : Engine) (store : Store) (line : Text) : Option Text :=
  match Directive.parse line with
  | .error _ => none
  | .ok d =>
    match engine.select store d with
    | .error _ => none
    | .ok (_, x) => x.readFor? store d

variable {store store' : Store}

theorem Benchmark.existingReport_eq_of_alike (h : store.Alike store') (source name : Text) :
    existingReport store' source name = existingReport store source name := by
  unfold existingReport
  rw [h.files, h.directories, h.subdirectories]

namespace Extractor

theorem canHandle_eq_of_alike (h : store.Alike store') (x : Extractor) (source name : Text) :
    x.canHandle store' source name = x.canHandle store source name := by
  cases x with
  | sourceFiles state =>
    unfold canHandle SourceExtractor.canHandle
    rw [h.files]
  | benchmark reads =>
    unfold canHandle
    rw [Benchmark.existingReport_eq_of_alike h]

/-- What is extracted depends on what is there and on the file that is read. -/
theorem extract_fst_eq_of_alike (h : store.Alike store') {x : Extractor} {d : Directive}
    (hread : ∀ path, x.readFor? store d = some path → store'.read path = store.read path) (options : Options) :
    (x.extract store' d.source d.name options).1 = (x.extract store d.source d.name options).1 := by
  cases x with
  | sourceFiles state =>
    have hview : state.view store' d.source = state.view store d.source := by
      rw [SourceExtractor.view_eq, SourceExtractor.view_eq, SourceExtractor.readNow, SourceExtractor.readNow,
        hread d.source rfl]
    have hhandle : SourceExtractor.canHandle store' d.source = SourceExtractor.canHandle store d.source :=
      canHandle_eq_of_alike h (sourceFiles state) d.source d.name
    show (state.extract store' d.source d.name options).1 = (state.extract store d.source d.name options).1
    rw [SourceExtractor.extract_fst, SourceExtractor.extract_fst, hview, hhandle]
  | benchmark reads =>
    show (Benchmark.extract store' d.source d.name options).1 = (Benchmark.extract store d.source d.name options).1
    unfold Benchmark.extract
    rw [Benchmark.existingReport_eq_of_alike h]
    cases hreport : Benchmark.existingReport store d.source d.name with
    | error e => rfl
    | ok path =>
      have hpath := hread path (by simp [readFor?, hreport, Except.toOption])
      dsimp only
      rw [hpath]

end Extractor

namespace Engine

theorem probe_eq_of_alike (h : store.Alike store') (d : Directive) (index : Nat) (xs : List Extractor) :
    probe store' d index xs = probe store d index xs := by
  induction xs generalizing index with
  | nil => rfl
  | cons x rest ih =>
    unfold probe
    rw [x.canHandle_eq_of_alike h, ih]

theorem select_eq_of_alike (h : store.Alike store') (engine : Engine) (d : Directive) :
    engine.select store' d = engine.select store d := by
  unfold select
  rw [probe_eq_of_alike h]

/-- **An answer depends on what is there and on the file that is read.** -/
theorem answer_eq_of_alike (h : store.Alike store') {engine : Engine} {line : Text}
    (hread : ∀ path, engine.readFor? store line = some path → store'.read path = store.read path) :
    engine.answer store' line = engine.answer store line := by
  unfold answer render
  cases hdirective : Directive.parse line with
  | error e => rfl
  | ok d =>
    show (engine.resolve store' d).1 = (engine.resolve store d).1
    unfold resolve
    rw [select_eq_of_alike h]
    cases pinnedRenderer d with
    | error e => rfl
    | ok pinned =>
      cases hselect : engine.select store d with
      | error e => rfl
      | ok found =>
        -- the extractor was selected by what is there, and reads the one file
        have hextract := Extractor.extract_fst_eq_of_alike h (x := found.2) (d := d)
          (fun path hpath => hread path (by simpa [readFor?, hdirective, hselect] using hpath)) d.importerOptions
        dsimp only
        rw [hextract]

end Engine

end Excerpt
