import Excerpt.Extractor.Basic
import Excerpt.Proofs.Engine.Snapshot

/-!
# Excerpt — what an extractor probes is what it finds

Before a directive is carried out, extractors are asked in turn whether they can handle its source. Extraction asks the
same again and then reads, or takes what it remembers. Over files in memory the two agree in every state of an
extractor, whatever it remembers of files that are gone or were written anew since: where the probe fails the
extraction fails for the same reason, and where the probe succeeds the source is there.

* **`Extractor.ownOption`** — the option that an extractor reads for itself.
* **`SourceExtractor.CanOutline`** — the outline of a source is remembered, or can be made.
* **`SourceExtractor.extract_of_canHandle`**, **`Benchmark.extract_of_existingReport`** — what is extracted behind a
  probe that succeeds, for each extractor.
* **`Extractor.extract_agrees_with_canHandle`** — the two agree, and the probe reads nothing.
-/

namespace Excerpt

variable {m : MemoryStore} {source name : Text} {options : Options}

/-! ## Source files -/

namespace SourceExtractor

/-- The outline of the source is remembered, or it can be made of the text that its file has. -/
def CanOutline (x : SourceExtractor) (m : MemoryStore) (source : Text) : Prop :=
  x.cache.lookup source = none → ∀ text, m.content? source = some text → SourceFile.parse? text ≠ none

/-- What a source stands for that can be handled: a source file, or one that has no outline. -/
theorem view_of_canHandle (x : SourceExtractor) (hcan : canHandle m.toStore source = .ok ()) :
    (∃ file, x.view m.toStore source = .ok file) ∨
      x.view m.toStore source = .error (.noOutline source) ∧ ¬ x.CanOutline m source := by
  cases hcache : x.cache.lookup source with
  | some file =>
    rw [view_eq, hcache]
    exact Or.inl ⟨file, rfl⟩
  | none =>
    obtain ⟨text, htext⟩ := Session.exists_content?_of_canHandle hcan
    rw [view_eq_outlined hcache (MemoryStore.read_toStore htext), outlined]
    cases hparse : SourceFile.parse? text with
    | some file => exact Or.inl ⟨file, rfl⟩
    | none => exact Or.inr ⟨rfl, fun houtline => houtline hcache text htext hparse⟩

/-- **What is extracted from a source that can be handled:** an excerpt, unless there is none of the name, or it is not
closed, or the source has no outline. -/
theorem extract_of_canHandle (x : SourceExtractor) (name : Text) {bodyOnly : Bool}
    (hoption : options.getBoolean "body-only".toList false = .ok bodyOnly)
    (hcan : canHandle m.toStore source = .ok ()) :
    (∃ fragment, (x.extract m.toStore source name options).1 = .ok fragment) ∨
      (x.extract m.toStore source name options).1 = .error (.excerptNotFound name source) ∨
      (x.extract m.toStore source name options).1 = .error (.missingClosingMarker name source) ∨
      (x.extract m.toStore source name options).1 = .error (.noOutline source) ∧ ¬ x.CanOutline m source := by
  rw [extract_fst, hoption, hcan]
  dsimp only
  rcases view_of_canHandle x hcan with ⟨file, hview⟩ | ⟨hview, houtline⟩
  · rw [hview]
    dsimp only
    cases file.extract source name bodyOnly with
    | ok fragment => exact Or.inl ⟨fragment, rfl⟩
    | error unlocated =>
      cases unlocated with
      | notFound => exact Or.inr (Or.inl rfl)
      | unclosed => exact Or.inr (Or.inr (Or.inl rfl))
  · rw [hview]
    exact Or.inr (Or.inr (Or.inr ⟨rfl, houtline⟩))

end SourceExtractor

/-! ## Reports -/

namespace Benchmark

/-- A report that is looked for and found is there. -/
theorem fileExists_of_existingReport {store : Store} {path : Text} (h : existingReport store source name = .ok path) :
    store.fileExists path = true := by
  unfold existingReport at h
  dsimp only at h
  split at h
  · cases h
  · split at h
    · cases h
    · split at h
      · cases h
      · split at h
        · next hexists =>
          obtain rfl := Except.ok.inj h
          exact hexists
        · cases h

/-- **A report that is found can be extracted.** -/
theorem extract_of_existingReport {includeEnvironment : Bool}
    (hoption : options.getBoolean "env".toList false = .ok includeEnvironment) {path : Text}
    (hpath : existingReport m.toStore source name = .ok path) :
    ∃ fragment, (extract m.toStore source name options).1 = .ok fragment := by
  obtain ⟨report, hreport⟩ := Option.isSome_iff_exists.mp (fileExists_of_existingReport hpath)
  unfold extract
  rw [hoption, hpath]
  dsimp only
  rw [MemoryStore.read_toStore hreport]
  exact ⟨_, rfl⟩

end Benchmark

/-! ## Extractors -/

namespace Extractor

/-- The option that the extractor reads for itself. -/
def ownOption : Extractor → Text
  | sourceFiles _ => "body-only".toList
  | benchmark _ => "env".toList

/-- **Where the probe fails, the extraction fails for the same reason**, over any store. -/
theorem extract_of_canHandle_eq_error {store : Store} (x : Extractor) {value : Bool}
    (hoption : options.getBoolean x.ownOption false = .ok value) {e : SourceError}
    (h : x.canHandle store source name = .error e) :
    (x.extract store source name options).1 = .error (.unavailable e) := by
  cases x with
  | sourceFiles x =>
    show (x.extract store source name options).1 = _
    rw [SourceExtractor.extract_fst, show options.getBoolean "body-only".toList false = .ok value from hoption,
      show SourceExtractor.canHandle store source = .error e from h]
  | benchmark reads =>
    have hpath : Benchmark.existingReport store source name = .error e := by
      cases hfound : Benchmark.existingReport store source name with
      | error e' => simpa [canHandle, hfound, Except.map] using h
      | ok path => simp [canHandle, hfound, Except.map] at h
    show (Benchmark.extract store source name options).1 = _
    unfold Benchmark.extract
    rw [show options.getBoolean "env".toList false = .ok value from hoption, hpath]

/-- **The probe and the extraction agree**, in every state of an extractor and of the files. A probe that fails tells
why the extraction fails. Behind a probe that succeeds the extraction does not fail for want of its source: there is an
excerpt from a report, and one from a source file unless it has none of the name or does not close it, if its outline
can be made. The probe does not depend on what is in any file. -/
theorem extract_agrees_with_canHandle (x : Extractor) (m : MemoryStore) (source name : Text) {options : Options}
    {value : Bool} (hoption : options.getBoolean x.ownOption false = .ok value) :
    (∀ e, x.canHandle m.toStore source name = .error e →
        (x.extract m.toStore source name options).1 = .error (.unavailable e)) ∧
      (x.canHandle m.toStore source name = .ok () →
        (∀ e, (x.extract m.toStore source name options).1 ≠ .error (.unavailable e)) ∧
          (∀ reads, x = .benchmark reads →
            ∃ fragment, (x.extract m.toStore source name options).1 = .ok fragment) ∧
          ∀ state, x = .sourceFiles state → state.CanOutline m source →
            (∃ fragment, (x.extract m.toStore source name options).1 = .ok fragment) ∨
              (x.extract m.toStore source name options).1 = .error (.excerptNotFound name source) ∨
              (x.extract m.toStore source name options).1 = .error (.missingClosingMarker name source)) ∧
      ∀ (store : Store) read, x.canHandle { store with read } source name = x.canHandle store source name := by
  refine ⟨fun e => extract_of_canHandle_eq_error x hoption, fun hcan => ?_, fun store read => ?_⟩
  · cases x with
    | sourceFiles state =>
      have hresult := state.extract_of_canHandle name hoption hcan
      show (∀ e, (state.extract m.toStore source name options).1 ≠ _) ∧ _ ∧ _
      refine ⟨fun e he => ?_, nofun, ?_⟩
      · rw [he] at hresult
        simp at hresult
      · rintro state ⟨⟩ houtline
        exact hresult.imp_right fun hfails => hfails.imp_right fun hfails =>
          hfails.resolve_right fun hnone => hnone.2 houtline
    | benchmark reads =>
      cases hpath : Benchmark.existingReport m.toStore source name with
      | error e => simp [canHandle, hpath, Except.map] at hcan
      | ok path =>
        obtain ⟨fragment, hfragment⟩ := Benchmark.extract_of_existingReport hoption hpath
        show (∀ e, (Benchmark.extract m.toStore source name options).1 ≠ _) ∧ _ ∧ _
        refine ⟨fun e he => ?_, fun _ _ => ⟨fragment, hfragment⟩, nofun⟩
        rw [hfragment] at he
        cases he
  · cases x <;> rfl

/-- An extractor that remembers a type. -/
def rememberedType : Extractor :=
  .sourceFiles (SourceExtractor.fresh.file (SourceExtractor.storeOf "class R;".toList) "R.cs".toList).2

/-- A file that has no outline. -/
def unoutlined : MemoryStore := .ofList [("R.cs".toList, "class A \x7b namespace B".toList)]

/-- What is remembered of a file is of no use when the file is gone, and is used when the file has no outline any
more. -/
theorem extract_agrees_with_canHandle_rememberedType :
    Options.empty.getBoolean rememberedType.ownOption false = .ok false ∧
      rememberedType.canHandle MemoryStore.empty.toStore "R.cs".toList "R".toList = .error (.notFound "R.cs".toList) ∧
      (rememberedType.extract MemoryStore.empty.toStore "R.cs".toList "R".toList .empty).1 =
        .error (.unavailable (.notFound "R.cs".toList)) ∧
      rememberedType.canHandle unoutlined.toStore "R.cs".toList "S".toList = .ok () ∧
      (rememberedType.extract unoutlined.toStore "R.cs".toList "S".toList .empty).1 =
        .error (.excerptNotFound "S".toList "R.cs".toList) := by
  have hoption : Options.empty.getBoolean rememberedType.ownOption false = .ok false := rfl
  have hgone : rememberedType.canHandle MemoryStore.empty.toStore "R.cs".toList "R".toList =
      .error (.notFound "R.cs".toList) := by decide +kernel
  have hcan : rememberedType.canHandle unoutlined.toStore "R.cs".toList "S".toList = .ok () := by decide +kernel
  obtain ⟨hfails, -, -⟩ := extract_agrees_with_canHandle rememberedType .empty "R.cs".toList "R".toList hoption
  obtain ⟨-, hanswers, -⟩ := extract_agrees_with_canHandle rememberedType unoutlined "R.cs".toList "S".toList hoption
  refine ⟨hoption, hgone, hfails _ hgone, hcan, ?_⟩
  have houtline : SourceExtractor.CanOutline
      (SourceExtractor.fresh.file (SourceExtractor.storeOf "class R;".toList) "R.cs".toList).2 unoutlined
      "R.cs".toList := by
    intro hnone
    exact absurd hnone (by decide +kernel)
  rcases (hanswers hcan).2.2 _ rfl houtline with ⟨fragment, hfragment⟩ | hnotFound | hunclosed
  · have hnone : (rememberedType.extract unoutlined.toStore "R.cs".toList "S".toList .empty).1.isOk = false := by
      decide +kernel
    rw [hfragment] at hnone
    cases hnone
  · exact hnotFound
  · exact absurd hunclosed (by decide +kernel)

end Extractor

end Excerpt
