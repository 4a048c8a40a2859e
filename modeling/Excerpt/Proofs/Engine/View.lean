import Excerpt.Engine
import Excerpt.Store.Memory

/-!
# Excerpt — what an engine remembers does not change its answers

An engine remembers the source files that it has read. Over a store that does not change this only
spares reading: what an extractor takes its excerpts from is its *view* of the store, and carrying out
a directive leaves every view as it was.

* **`Extractor.view`**, **`Engine.view`** — the source file that each name stands for, read now or
  remembered.
* **`view_file`**, **`Extractor.view_extract`**, **`Engine.view_render`** — reading a file, taking an
  excerpt and carrying out a directive keep the view.
* **`Engine.answer_eq_of_view_eq`** — engines with one view give a directive one answer.
-/

namespace Excerpt

section MapError

variable {α ε ε' : Type}

@[simp] theorem mapError_ok (f : ε → ε') (a : α) :
    (Except.ok a : Except ε α).mapError f = .ok a := rfl

@[simp] theorem mapError_error (f : ε → ε') (e : ε) :
    (Except.error e : Except ε α).mapError f = .error (f e) := rfl

end MapError

/-! ## Source files -/

namespace SourceExtractor

variable (store : Store)

/-- The source file that a name stands for. -/
def view (x : SourceExtractor) (source : Text) : Except Error SourceFile := (x.file store source).1

/-- The source file that a name stands for where nothing is remembered. -/
def readNow (source : Text) : Except Error SourceFile :=
  match store.read source with
  | .error e => .error (.unavailable e)
  | .ok text =>
    match SourceFile.parse? text with
    | none => .error (.noOutline source)
    | some file => .ok file

/-- A remembered file goes before the one that is there now. -/
theorem view_eq (x : SourceExtractor) (source : Text) :
    x.view store source =
      match x.cache.lookup source with
      | some file => .ok file
      | none => readNow store source := by
  unfold view file readNow
  cases x.cache.lookup source with
  | some found => rfl
  | none =>
    cases store.read source with
    | error e => rfl
    | ok text =>
      dsimp only
      cases SourceFile.parse? text <;> rfl

/-- What a source of the given text stands for. -/
def outlined (source text : Text) : Except Error SourceFile :=
  match SourceFile.parse? text with
  | none => .error (.noOutline source)
  | some file => .ok file

/-- A source that was not read before stands for the text that it has now. -/
theorem view_eq_outlined {store : Store} {x : SourceExtractor} {source text : Text}
    (hcache : x.cache.lookup source = none) (hread : store.read source = .ok text) :
    x.view store source = outlined source text := by
  rw [view_eq, hcache]
  dsimp only
  rw [readNow, hread]
  rfl

/-- A store whose only file has the given text. -/
def storeOf (text : Text) : Store := (MemoryStore.ofList [("R.cs".toList, text)]).toStore

/-- **The ways to look a file up:** it is remembered; it is read in vain; it is read, and remembered then. -/
theorem file_cases (x : SourceExtractor) (source : Text) :
    (∃ file, x.cache.lookup source = some file ∧ x.file store source = (.ok file, x)) ∨
      (∃ e, x.cache.lookup source = none ∧ readNow store source = .error e ∧
        x.file store source = (.error e, { x with reads := x.reads + 1 })) ∨
      ∃ file, x.cache.lookup source = none ∧ readNow store source = .ok file ∧
        x.file store source = (.ok file, ⟨(source, file) :: x.cache, x.reads + 1⟩) := by
  unfold file readNow
  cases x.cache.lookup source with
  | some found => exact Or.inl ⟨found, rfl, rfl⟩
  | none =>
    cases store.read source with
    | error e => exact Or.inr (Or.inl ⟨_, rfl, rfl, rfl⟩)
    | ok text =>
      dsimp only
      cases SourceFile.parse? text with
      | none => exact Or.inr (Or.inl ⟨_, rfl, rfl, rfl⟩)
      | some parsed => exact Or.inr (Or.inr ⟨parsed, rfl, rfl, rfl⟩)

/-- A file that was read stands for its name from then on, and no other name changes. -/
theorem view_file (x : SourceExtractor) (source : Text) :
    (x.file store source).2.view store = x.view store := by
  rcases file_cases store x source with ⟨file, -, hfile⟩ | ⟨e, -, -, hfile⟩ | ⟨file, hnone, hread, hfile⟩
  · rw [hfile]
  · rw [hfile]
    funext other
    rw [view_eq, view_eq]
  · funext other
    rw [hfile, view_eq, view_eq, List.lookup_cons]
    by_cases heq : other = source
    · -- what is remembered now would have been read before
      subst heq
      simp [hnone, hread]
    · have hne : (other == source) = false := by simpa using heq
      rw [hne]

/-- What is taken out of a source depends on the view alone. -/
theorem extract_fst (x : SourceExtractor) (source name : Text) (options : Options) :
    (x.extract store source name options).1 =
      match options.getBoolean "body-only".toList false with
      | .error e => .error (.option e)
      | .ok bodyOnly =>
        match canHandle store source with
        | .error e => .error (.unavailable e)
        | .ok () =>
          match x.view store source with
          | .error e => .error e
          | .ok file => (file.extract source name bodyOnly).mapError (explain source name) := by
  unfold extract view
  cases options.getBoolean "body-only".toList false with
  | error e => rfl
  | ok bodyOnly =>
    cases canHandle store source with
    | error e => rfl
    | ok _ =>
      obtain ⟨result, y⟩ := x.file store source
      cases result <;> rfl

theorem extract_fst_eq_of_view_eq {x y : SourceExtractor} (h : x.view store = y.view store)
    (source name : Text) (options : Options) :
    (x.extract store source name options).1 = (y.extract store source name options).1 := by
  rw [extract_fst, extract_fst, h]

/-- Whether an extraction looks the file of its source up. -/
def looksUp (source : Text) (options : Options) : Bool :=
  (options.getBoolean "body-only".toList false).isOk && (canHandle store source).isOk

theorem looksUp_iff {store : Store} {source : Text} {options : Options} :
    looksUp store source options = true ↔
      (∃ bodyOnly, options.getBoolean "body-only".toList false = .ok bodyOnly) ∧
        canHandle store source = .ok () := by
  unfold looksUp
  cases options.getBoolean "body-only".toList false <;> cases canHandle store source <;>
    simp [Except.isOk, Except.toBool]

/-- What an extraction remembers, it remembers by looking its file up. -/
theorem extract_snd (x : SourceExtractor) (source name : Text) (options : Options) :
    (x.extract store source name options).2 =
      if looksUp store source options then (x.file store source).2 else x := by
  unfold extract looksUp
  cases options.getBoolean "body-only".toList false with
  | error e => rfl
  | ok bodyOnly =>
    cases canHandle store source with
    | error e => rfl
    | ok _ =>
      obtain ⟨result, y⟩ := x.file store source
      cases result <;> rfl

theorem view_extract (x : SourceExtractor) (source name : Text) (options : Options) :
    (x.extract store source name options).2.view store = x.view store := by
  rw [extract_snd]
  split
  · exact view_file store x source
  · rfl

end SourceExtractor

/-! ## Extractors -/

/-- What an extractor takes its excerpts from: a source file for each name, or the reports that are
there. -/
inductive ExtractorView where
  | sourceFiles (file : Text → Except Error SourceFile)
  | benchmark

namespace Extractor

variable (store : Store)

/-- What the extractor takes its excerpts from. -/
def view : Extractor → ExtractorView
  | sourceFiles x => .sourceFiles (x.view store)
  | benchmark _ => .benchmark

variable {store} {x y : Extractor}

theorem name_eq_of_view_eq (h : x.view store = y.view store) : x.name = y.name := by
  cases x <;> cases y <;> first | rfl | exact absurd h (by simp [view])

theorem preferredRenderer_eq_of_view_eq (h : x.view store = y.view store) :
    x.preferredRenderer = y.preferredRenderer := by
  cases x <;> cases y <;> first | rfl | exact absurd h (by simp [view])

theorem canHandle_eq_of_view_eq (h : x.view store = y.view store) (source name : Text) :
    x.canHandle store source name = y.canHandle store source name := by
  cases x <;> cases y <;> first | rfl | exact absurd h (by simp [view])

theorem extract_fst_eq_of_view_eq (h : x.view store = y.view store) (source name : Text)
    (options : Options) :
    (x.extract store source name options).1 = (y.extract store source name options).1 := by
  cases x with
  | sourceFiles x =>
    cases y with
    | sourceFiles y =>
      exact SourceExtractor.extract_fst_eq_of_view_eq store (ExtractorView.sourceFiles.inj h) source
        name options
    | benchmark n => exact absurd h (by simp [view])
  | benchmark m =>
    cases y with
    | sourceFiles y => exact absurd h (by simp [view])
    | benchmark n => rfl

theorem view_extract (x : Extractor) (source name : Text) (options : Options) :
    (x.extract store source name options).2.view store = x.view store := by
  cases x with
  | sourceFiles x =>
    exact congrArg ExtractorView.sourceFiles (SourceExtractor.view_extract store x source name options)
  | benchmark n => rfl

end Extractor

/-! ## Engines -/

namespace Engine

variable (store : Store)

/-- What the extractors of the engine take their excerpts from, in order. -/
def view (engine : Engine) : List ExtractorView := engine.extractors.map (Extractor.view store)

variable {store}

/-- The extractors that are tried in turn decide alike. Induction on the extractors. -/
theorem probe_eq_of_map_view_eq (d : Directive) {xs ys : List Extractor}
    (h : xs.map (Extractor.view store) = ys.map (Extractor.view store)) (index : Nat) :
    (probe store d index xs).map (Prod.map id (Extractor.view store)) =
      (probe store d index ys).map (Prod.map id (Extractor.view store)) := by
  induction xs generalizing ys index with
  | nil =>
    obtain rfl : ys = [] := by simpa using h.symm
    rfl
  | cons x xs ih =>
    cases ys with
    | nil => simp at h
    | cons y ys =>
      obtain ⟨hxy, hrest⟩ := List.cons.inj h
      unfold probe
      rw [Extractor.canHandle_eq_of_view_eq hxy]
      cases y.canHandle store d.source d.name with
      | ok _ => simp [Except.map, hxy]
      | error reason =>
        have hind := ih hrest (index + 1)
        revert hind
        cases probe store d (index + 1) xs <;> cases probe store d (index + 1) ys <;>
          simp [Except.map]

theorem findIdx?_name_eq_of_map_view_eq (p : Text → Bool) {xs ys : List Extractor}
    (h : xs.map (Extractor.view store) = ys.map (Extractor.view store)) :
    xs.findIdx? (fun x => p x.name) = ys.findIdx? (fun y => p y.name) := by
  induction xs generalizing ys with
  | nil =>
    obtain rfl : ys = [] := by simpa using h.symm
    rfl
  | cons x xs ih =>
    cases ys with
    | nil => simp at h
    | cons y ys =>
      obtain ⟨hxy, hrest⟩ := List.cons.inj h
      rw [List.findIdx?_cons, List.findIdx?_cons, Extractor.name_eq_of_view_eq hxy, ih hrest]

/-- Engines with one view choose the extractor at one place, and it has one view. -/
theorem select_eq_of_view_eq {engine other : Engine} (h : engine.view store = other.view store)
    (d : Directive) :
    (engine.select store d).map (Prod.map id (Extractor.view store)) =
      (other.select store d).map (Prod.map id (Extractor.view store)) := by
  unfold select
  cases d.importer with
  | none =>
    have hprobe := probe_eq_of_map_view_eq d h 0
    revert hprobe
    cases probe store d 0 engine.extractors <;> cases probe store d 0 other.extractors <;>
      simp [Except.map]
  | some choice =>
    simp only
    rw [findIdx?_name_eq_of_map_view_eq (Text.eqIgnoreCase · choice.name) h]
    cases other.extractors.findIdx? fun x => Text.eqIgnoreCase x.name choice.name with
    | none => rfl
    | some index =>
      have hget := congrArg (fun views => views[index]?) h
      simp only [view, List.getElem?_map] at hget
      dsimp only
      revert hget
      cases engine.extractors[index]? with
      | none => cases other.extractors[index]? <;> simp
      | some x => cases other.extractors[index]? <;> simp [Except.map]

theorem getElem?_of_probe {d : Directive} {xs : List Extractor} {start index : Nat} {x : Extractor}
    (h : probe store d start xs = .ok (index, x)) :
    ∃ k, index = start + k ∧ xs[k]? = some x := by
  induction xs generalizing start with
  | nil => simp [probe] at h
  | cons y ys ih =>
    unfold probe at h
    cases hcan : y.canHandle store d.source d.name with
    | ok _ =>
      rw [hcan] at h
      obtain ⟨rfl, rfl⟩ : start = index ∧ y = x := by simpa using h
      exact ⟨0, rfl, rfl⟩
    | error reason =>
      rw [hcan] at h
      cases hrest : probe store d (start + 1) ys with
      | error reasons => simp [hrest] at h
      | ok found =>
        obtain rfl : found = (index, x) := by simpa [hrest] using h
        obtain ⟨k, hk, hx⟩ := ih hrest
        exact ⟨k + 1, by omega, by simpa using hx⟩

theorem getElem?_of_select {engine : Engine} {d : Directive} {index : Nat} {x : Extractor}
    (h : engine.select store d = .ok (index, x)) : engine.extractors[index]? = some x := by
  unfold select at h
  cases himporter : d.importer with
  | none =>
    rw [himporter] at h
    cases hprobe : probe store d 0 engine.extractors with
    | error reasons => simp [hprobe] at h
    | ok found =>
      obtain rfl : found = (index, x) := by simpa [hprobe] using h
      obtain ⟨k, hk, hx⟩ := getElem?_of_probe hprobe
      rwa [hk, Nat.zero_add]
  | some choice =>
    rw [himporter] at h
    simp only at h
    split at h
    · simp at h
    · split at h
      · simp at h
      · next hget =>
        obtain ⟨rfl, rfl⟩ := Prod.mk.inj (Except.ok.inj h)
        exact hget

theorem view_set {engine : Engine} {index : Nat} {x y : Extractor}
    (hget : engine.extractors[index]? = some x) (hview : y.view store = x.view store) :
    view store ⟨engine.extractors.set index y⟩ = engine.view store := by
  unfold view
  rw [List.map_set, hview]
  apply List.ext_getElem?
  intro i
  rw [List.getElem?_set]
  split
  · next h =>
    subst h
    obtain ⟨hlt, rfl⟩ := List.getElem?_eq_some_iff.mp hget
    simp [hlt]
  · rfl

theorem view_resolve (engine : Engine) (d : Directive) :
    (engine.resolve store d).2.view store = engine.view store := by
  unfold resolve
  cases pinnedRenderer d with
  | error e => rfl
  | ok pinned =>
    cases hselect : engine.select store d with
    | error e => rfl
    | ok found =>
      obtain ⟨index, x⟩ := found
      exact view_set (getElem?_of_select hselect) (Extractor.view_extract x _ _ _)

theorem resolve_fst_eq_of_view_eq {engine other : Engine}
    (h : engine.view store = other.view store) (d : Directive) :
    (engine.resolve store d).1 = (other.resolve store d).1 := by
  have hselect := select_eq_of_view_eq h d
  unfold resolve
  cases pinnedRenderer d with
  | error e => rfl
  | ok pinned =>
    simp only
    revert hselect
    cases engine.select store d with
    | error e =>
      cases other.select store d with
      | error e' =>
        intro hselect
        exact congrArg Except.error (Except.error.inj hselect)
      | ok found => simp [Except.map]
    | ok found =>
      cases other.select store d with
      | error e' => simp [Except.map]
      | ok found' =>
        intro hselect
        -- the extractors chosen differ at most in what they remember
        obtain ⟨index, x⟩ := found
        obtain ⟨index', y⟩ := found'
        have hpair : (index, x.view store) = (index', y.view store) := Except.ok.inj hselect
        have hxy : x.view store = y.view store := (Prod.mk.inj hpair).2
        simp only
        rw [Extractor.extract_fst_eq_of_view_eq hxy, Extractor.preferredRenderer_eq_of_view_eq hxy]

variable (store)

/-- The text that the directive on a trimmed line asks for, whatever becomes of the engine. -/
def answer (engine : Engine) (line : Text) : Except Error Text := (engine.render store line).1

/-- **Carrying out the directive of a line keeps the view.** -/
theorem view_render (engine : Engine) (line : Text) :
    (engine.render store line).2.view store = engine.view store := by
  unfold render
  cases Directive.parse line with
  | error e => rfl
  | ok d => exact view_resolve engine d

variable {store}

/-- **Engines with one view give one answer.** -/
theorem answer_eq_of_view_eq {engine other : Engine} (h : engine.view store = other.view store) :
    engine.answer store = other.answer store := by
  funext line
  unfold answer render
  cases Directive.parse line with
  | error e => rfl
  | ok d => exact resolve_fst_eq_of_view_eq h d

variable (store)

theorem answer_render (engine : Engine) (line : Text) :
    (engine.render store line).2.answer store = engine.answer store :=
  answer_eq_of_view_eq (view_render store engine line)

variable {store}

/-- What was asked is answered, and the engine behind it answers as the one before. -/
theorem answer_of_render_eq {engine engine' : Engine} {line : Text} {result : Except Error Text}
    (h : engine.render store line = (result, engine')) :
    engine.answer store line = result ∧ engine'.answer store = engine.answer store := by
  have hsame := answer_render store engine line
  rw [h] at hsame
  exact ⟨congrArg Prod.fst h, hsame⟩

end Engine

end Excerpt
