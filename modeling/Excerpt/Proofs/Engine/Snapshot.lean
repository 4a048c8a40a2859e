import Excerpt.Proofs.Engine.View
import Mathlib.Data.Finset.Card

/-!
# Excerpt — a remembered source file is a snapshot

A session with one extractor over files that change: what is extracted from a source is taken from the text which
its file had when the source was first looked up under the name as the directive spells it, and from nothing else.
Each name is read once, and whether an extraction looks its source up at all is decided by the files as they are.

* **`Session.step`**, **`Session.run`** — what is done in a session, one step after the other.
* **`lookUps`** — the look-ups of a session, each with the files of its moment.
* **`Remembers`**, **`Remembers.look`** — the memory of the extractor is what the look-ups say, before one more
  look-up and behind it.
* **`IsBehind.step`**, **`IsBehind.getElem?_run`** — one step of a session, and a run.
* **`Session.run_snapshot`** — the answers of a session and the number of reads behind each step.
-/

namespace Excerpt

/-- The store without the file at the path. -/
def MemoryStore.remove (m : MemoryStore) (path : Text) : MemoryStore :=
  ⟨m.files.filter fun file => file.1 ≠ normalize path⟩

/-- A session: the files, and an extractor that reads them. -/
structure Session where
  files : MemoryStore
  extractor : SourceExtractor

namespace Session

/-- What can be done in a session. -/
inductive Step where
  | canHandle (source : Text)
  | extract (source name : Text) (options : Options)
  | write (path content : Text)
  | remove (path : Text)

/-- What a step answers. -/
inductive Answer where
  | handled (result : Except SourceError Unit)
  | extracted (result : Except Error Fragment)
  | changed
  deriving DecidableEq

/-- The files after a step. -/
def Step.change (files : MemoryStore) : Step → MemoryStore
  | write path content => files.insert path content
  | remove path => files.remove path
  | _ => files

/-- A session has nothing to go on with where a source has no outline. -/
def Answer.endsSession : Answer → Bool
  | extracted (.error (.noOutline _)) => true
  | _ => false

/-- Takes a step. -/
def step (s : Session) (step : Step) : Answer × Session :=
  match step with
  | .canHandle source => (.handled (SourceExtractor.canHandle s.files.toStore source), s)
  | .extract source name options =>
    let (result, extractor) := s.extractor.extract s.files.toStore source name options
    (.extracted result, { s with extractor })
  | step => (.changed, { s with files := step.change s.files })

/-- The answers of a session, each with the number of reads behind its step. -/
def run (s : Session) : List Step → List (Answer × Nat)
  | [] => []
  | step :: rest =>
    let (answer, s) := s.step step
    (answer, s.extractor.reads) :: if answer.endsSession then [] else s.run rest

/-! ## What the files and look-ups of a session are -/

/-- The files after some steps. -/
def filesAfter (files : MemoryStore) (steps : List Step) : MemoryStore := steps.foldl Step.change files

/-- The look-up of a step: an extraction whose options can be read looks its source up if it is there. -/
def Step.lookUp? (files : MemoryStore) : Step → Option Text
  | extract source _ options => if SourceExtractor.looksUp files.toStore source options then some source else none
  | _ => none

/-- The sources that are looked up in some steps, in order, each with the files of its moment. -/
def lookUps (files : MemoryStore) : List Step → List (Text × MemoryStore)
  | [] => []
  | step :: rest =>
    ((step.lookUp? files).map fun source => (source, files)).toList ++ lookUps (step.change files) rest

/-- What a step is to answer behind others. An extraction is made as if nothing were remembered, over the files
of the first look-up of its source. -/
def expected (files : MemoryStore) (before : List Step) : Step → Answer
  | .canHandle source => .handled (SourceExtractor.canHandle (filesAfter files before).toStore source)
  | .extract source name options =>
    match options.getBoolean "body-only".toList false with
    | .error e => .extracted (.error (.option e))
    | .ok _ =>
      match SourceExtractor.canHandle (filesAfter files before).toStore source with
      | .error e => .extracted (.error (.unavailable e))
      | .ok () =>
        let first := ((lookUps files before).lookup source).getD (filesAfter files before)
        .extracted (SourceExtractor.fresh.extract first.toStore source name options).1
  | _ => .changed

theorem filesAfter_concat (files : MemoryStore) (before : List Step) (step : Step) :
    filesAfter files (before ++ [step]) = step.change (filesAfter files before) :=
  List.foldl_concat ..

/-- Induction on the steps, in which the files change. -/
theorem lookUps_concat (files : MemoryStore) (before : List Step) (step : Step) :
    lookUps files (before ++ [step]) =
      lookUps files before ++
        ((step.lookUp? (filesAfter files before)).map fun source => (source, filesAfter files before)).toList := by
  induction before generalizing files with
  | nil => simp [lookUps, filesAfter]
  | cons first before ih =>
    rw [List.cons_append, lookUps, ih, lookUps, List.append_assoc]
    rfl

end Session

/-! ## What an extractor remembers of look-ups -/

/-- How many sources there are among look-ups. -/
def sourceCount (asked : List (Text × MemoryStore)) : Nat := (asked.map Prod.fst).toFinset.card

theorem sourceCount_concat_of_mem {asked : List (Text × MemoryStore)} {source : Text}
    (h : source ∈ asked.map Prod.fst) (files : MemoryStore) :
    sourceCount (asked ++ [(source, files)]) = sourceCount asked := by
  have hset : ((asked ++ [(source, files)]).map Prod.fst).toFinset = (asked.map Prod.fst).toFinset := by
    ext other
    suffices other = source → other ∈ asked.map Prod.fst by simpa using this
    rintro rfl
    exact h
  rw [sourceCount, hset, sourceCount]

theorem sourceCount_concat_of_notMem {asked : List (Text × MemoryStore)} {source : Text}
    (h : source ∉ asked.map Prod.fst) (files : MemoryStore) :
    sourceCount (asked ++ [(source, files)]) = sourceCount asked + 1 := by
  have hset : ((asked ++ [(source, files)]).map Prod.fst).toFinset =
      insert source (asked.map Prod.fst).toFinset := by
    ext other
    simp
  rw [sourceCount, hset, Finset.card_insert_of_notMem (by simpa using h), sourceCount]

theorem mem_of_lookup {asked : List (Text × MemoryStore)} {source : Text} {files : MemoryStore}
    (h : asked.lookup source = some files) : source ∈ asked.map Prod.fst := by
  obtain ⟨before, after, heq, -⟩ := List.lookup_eq_some_iff.mp h
  simp [heq]

theorem notMem_of_lookup {asked : List (Text × MemoryStore)} {source : Text}
    (h : asked.lookup source = none) : source ∉ asked.map Prod.fst := by
  intro hmem
  obtain ⟨entry, hentry, rfl⟩ := List.mem_map.mp hmem
  simpa using List.lookup_eq_none_iff.mp h entry hentry

theorem lookup_concat (asked : List (Text × MemoryStore)) (source other : Text) (files : MemoryStore) :
    (asked ++ [(source, files)]).lookup other =
      (asked.lookup other).or (if other = source then some files else none) := by
  rw [List.lookup_append, List.lookup_cons, List.lookup_nil]
  by_cases heq : other = source
  · simp [heq]
  · simp [heq, beq_eq_false_iff_ne.mpr heq]

/-- The memory of an extractor is what the look-ups say: what is remembered under a name is the outline of the
file as the first of them found it, and there was one read for each name. -/
structure Remembers (asked : List (Text × MemoryStore)) (x : SourceExtractor) : Prop where
  file : ∀ source,
    match asked.lookup source with
    | none => x.cache.lookup source = none
    | some files =>
      ∃ file, SourceExtractor.readNow files.toStore source = .ok file ∧ x.cache.lookup source = some file
  reads : x.reads = sourceCount asked

namespace Remembers

variable {asked : List (Text × MemoryStore)} {x : SourceExtractor}

theorem fresh : Remembers [] .fresh where
  file _ := rfl
  reads := rfl

/-- What was looked up before is the same again, and is not read. -/
theorem file_of_some (h : Remembers asked x) {source : Text} {first : MemoryStore}
    (hfirst : asked.lookup source = some first) (files : MemoryStore) :
    x.file files.toStore source = (SourceExtractor.readNow first.toStore source, x) ∧
      Remembers (asked ++ [(source, files)]) x := by
  have hsource := h.file source
  rw [hfirst] at hsource
  obtain ⟨file, hread, hcache⟩ := hsource
  constructor
  · rcases SourceExtractor.file_cases files.toStore x source with ⟨found, hsome, hfile⟩ | ⟨e, hnone, -⟩ |
      ⟨found, hnone, -⟩
    · obtain rfl : found = file := Option.some.inj (hsome.symm.trans hcache)
      rw [hfile, hread]
    · simp [hcache] at hnone
    · simp [hcache] at hnone
  · refine ⟨fun other => ?_, h.reads.trans (sourceCount_concat_of_mem (mem_of_lookup hfirst) files).symm⟩
    rw [lookup_concat]
    by_cases heq : other = source
    · subst heq
      rw [hfirst]
      exact ⟨file, hread, hcache⟩
    · rw [if_neg heq, Option.or_none]
      exact h.file other

/-- What was not looked up before is read now, and remembered if it has an outline. -/
theorem file_of_none (h : Remembers asked x) {source : Text} (hfirst : asked.lookup source = none)
    (files : MemoryStore) :
    (x.file files.toStore source).1 = SourceExtractor.readNow files.toStore source ∧
      (x.file files.toStore source).2.reads = sourceCount (asked ++ [(source, files)]) ∧
      (∀ file, SourceExtractor.readNow files.toStore source = .ok file →
        Remembers (asked ++ [(source, files)]) (x.file files.toStore source).2) := by
  have hsource := h.file source
  rw [hfirst] at hsource
  have hcount := sourceCount_concat_of_notMem (notMem_of_lookup hfirst) files
  rcases SourceExtractor.file_cases files.toStore x source with ⟨found, hsome, -⟩ | ⟨e, -, hread, hfile⟩ |
    ⟨found, -, hread, hfile⟩
  · simp [hsource] at hsome
  · rw [hfile, hread]
    exact ⟨rfl, by rw [hcount, h.reads], nofun⟩
  · rw [hfile, hread]
    refine ⟨rfl, by rw [hcount, h.reads], fun _ _ => ⟨fun other => ?_, by rw [hcount, h.reads]⟩⟩
    rw [lookup_concat, List.lookup_cons]
    by_cases heq : other = source
    · subst heq
      rw [hfirst, if_pos rfl]
      exact ⟨found, hread, by simp⟩
    · rw [if_neg heq, Option.or_none, beq_eq_false_iff_ne.mpr heq]
      exact h.file other

/-- **What a look-up finds** is what there was at the first one of the source. -/
theorem look (h : Remembers asked x) (source : Text) (files : MemoryStore) :
    (x.file files.toStore source).1 =
        SourceExtractor.readNow ((asked.lookup source).getD files).toStore source ∧
      (x.file files.toStore source).2.reads = sourceCount (asked ++ [(source, files)]) ∧
      (∀ file, (x.file files.toStore source).1 = .ok file →
        Remembers (asked ++ [(source, files)]) (x.file files.toStore source).2) := by
  cases hfirst : asked.lookup source with
  | some first =>
    obtain ⟨hfile, hnext⟩ := h.file_of_some hfirst files
    rw [hfile]
    exact ⟨rfl, hnext.reads, fun _ _ => hnext⟩
  | none =>
    obtain ⟨hresult, hreads, hnext⟩ := h.file_of_none hfirst files
    exact ⟨hresult, hreads, fun file hok => hnext file (hresult.symm.trans hok)⟩

end Remembers

/-! ## Sessions -/

namespace Session

/-- In memory a source that can be handled has a file. -/
theorem exists_content?_of_canHandle {files : MemoryStore} {source : Text}
    (h : SourceExtractor.canHandle files.toStore source = .ok ()) : ∃ content, files.content? source = some content := by
  refine Option.isSome_iff_exists.mp ?_
  unfold SourceExtractor.canHandle at h
  by_contra hnone
  have hmissing : files.toStore.fileExists source = false := by simpa [MemoryStore.toStore] using hnone
  rw [hmissing] at h
  split at h <;> simp at h

/-- And the file can be read. -/
theorem readNow_of_canHandle {files : MemoryStore} {source : Text}
    (h : SourceExtractor.canHandle files.toStore source = .ok ()) {e : Error}
    (herror : SourceExtractor.readNow files.toStore source = .error e) : e = .noOutline source := by
  obtain ⟨content, hcontent⟩ := exists_content?_of_canHandle h
  unfold SourceExtractor.readNow at herror
  rw [MemoryStore.read_toStore hcontent] at herror
  dsimp only at herror
  cases hparse : SourceFile.parse? content with
  | none =>
    rw [hparse] at herror
    exact (Except.error.inj herror).symm
  | some file =>
    rw [hparse] at herror
    cases herror

theorem looksUp_of_lookUp? {files : MemoryStore} {step : Step} {source : Text}
    (h : step.lookUp? files = some source) :
    ∃ name options, step = .extract source name options ∧
      SourceExtractor.looksUp files.toStore source options = true := by
  cases step with
  | extract source' name options =>
    by_cases hlook : SourceExtractor.looksUp files.toStore source' options = true
    · obtain rfl : source' = source := by simpa [Step.lookUp?, hlook] using h
      exact ⟨name, options, rfl, hlook⟩
    · simp [Step.lookUp?, hlook] at h
  | _ => simp [Step.lookUp?] at h

/-- A source is looked up only where it can be handled. -/
theorem canHandle_of_mem_lookUps {files : MemoryStore} {steps : List Step} {source : Text} {found : MemoryStore}
    (h : (source, found) ∈ lookUps files steps) : SourceExtractor.canHandle found.toStore source = .ok () := by
  induction steps generalizing files with
  | nil => simp [lookUps] at h
  | cons step rest ih =>
    rw [lookUps, List.mem_append] at h
    rcases h with hnow | hlater
    · obtain ⟨hlook, rfl⟩ : step.lookUp? files = some source ∧ files = found := by simpa using hnow
      obtain ⟨name, options, -, hlooks⟩ := looksUp_of_lookUp? hlook
      exact (SourceExtractor.looksUp_iff.mp hlooks).2
    · exact ih hlater

/-- The files of the first look-up of a source, the present ones where there was none. -/
theorem canHandle_first {files now : MemoryStore} {before : List Step} {source : Text}
    (h : SourceExtractor.canHandle now.toStore source = .ok ()) :
    SourceExtractor.canHandle (((lookUps files before).lookup source).getD now).toStore source = .ok () := by
  cases hfirst : (lookUps files before).lookup source with
  | none => exact h
  | some first =>
    obtain ⟨_, _, heq, -⟩ := List.lookup_eq_some_iff.mp hfirst
    have hmem : (source, first) ∈ lookUps files before := by simp [heq]
    exact canHandle_of_mem_lookUps hmem

theorem step_files (s : Session) (step : Step) : (s.step step).2.files = step.change s.files := by
  cases step <;> rfl

theorem step_extractor (s : Session) (step : Step) :
    (s.step step).2.extractor =
      match step.lookUp? s.files with
      | none => s.extractor
      | some source => (s.extractor.file s.files.toStore source).2 := by
  cases step with
  | extract source name options =>
    refine (SourceExtractor.extract_snd s.files.toStore s.extractor source name options).trans ?_
    unfold Step.lookUp?
    by_cases hlook : SourceExtractor.looksUp s.files.toStore source options = true <;> simp [hlook]
  | _ => rfl

/-- The session is what it is behind the steps: the files are what was made of them, and the extractor remembers
what was looked up. -/
structure IsBehind (start : MemoryStore) (before : List Step) (s : Session) : Prop where
  files : s.files = filesAfter start before
  memory : Remembers (lookUps start before) s.extractor

namespace IsBehind

variable {start : MemoryStore} {before : List Step} {s : Session}

/-- What a step answers. -/
theorem step_fst (h : IsBehind start before s) (step : Step) : (s.step step).1 = expected start before step := by
  cases step with
  | extract source name options =>
    refine congrArg Answer.extracted (SourceExtractor.extract_fst s.files.toStore s.extractor source name options)
      |>.trans ?_
    rw [expected, ← h.files]
    cases hoption : options.getBoolean "body-only".toList false with
    | error e => rfl
    | ok bodyOnly =>
      cases hcan : SourceExtractor.canHandle s.files.toStore source with
      | error e => rfl
      | ok _ =>
        dsimp only
        -- the files of the first look-up had the source too, so the fresh extractor comes as far
        rw [SourceExtractor.extract_fst, hoption, canHandle_first hcan, SourceExtractor.view,
          (h.memory.look source s.files).1, SourceExtractor.view_eq]
        rfl
  | canHandle source => rw [expected, ← h.files]; rfl
  | _ => rfl

/-- A source that has no outline ends the session. -/
theorem file_ok_of_step (h : IsBehind start before s) {step : Step} {source : Text}
    (hlook : step.lookUp? s.files = some source) (hgoes : (s.step step).1.endsSession = false) :
    ∃ file, (s.extractor.file s.files.toStore source).1 = .ok file := by
  cases hfile : (s.extractor.file s.files.toStore source).1 with
  | ok file => exact ⟨file, rfl⟩
  | error e =>
    obtain ⟨name, options, rfl, hlooks⟩ := looksUp_of_lookUp? hlook
    obtain ⟨⟨bodyOnly, hoption⟩, hcan⟩ := SourceExtractor.looksUp_iff.mp hlooks
    have hresult := SourceExtractor.extract_fst s.files.toStore s.extractor source name options
    rw [hoption, hcan, SourceExtractor.view, hfile] at hresult
    -- the file was there at the first look-up, so the one thing that can be wrong with it is its outline
    rw [(h.memory.look source s.files).1] at hfile
    obtain rfl := readNow_of_canHandle (canHandle_first hcan) hfile
    have hends : (s.step (.extract source name options)).1 = .extracted (.error (.noOutline source)) :=
      congrArg Answer.extracted hresult
    rw [hends] at hgoes
    simp [Answer.endsSession] at hgoes

/-- **One step**, behind any others. -/
theorem step (h : IsBehind start before s) (step : Step) :
    (s.step step).2.extractor.reads = sourceCount (lookUps start (before ++ [step])) ∧
      ((s.step step).1.endsSession = false → IsBehind start (before ++ [step]) (s.step step).2) := by
  have hfiles : (s.step step).2.files = filesAfter start (before ++ [step]) := by
    rw [step_files, filesAfter_concat, h.files]
  have hasked := lookUps_concat start before step
  rw [← h.files] at hasked
  have hextractor := step_extractor s step
  cases hlook : step.lookUp? s.files with
  | none =>
    rw [hlook] at hasked hextractor
    have hsame : lookUps start (before ++ [step]) = lookUps start before := hasked.trans (List.append_nil _)
    rw [hextractor, hsame]
    exact ⟨h.memory.reads, fun _ => ⟨hfiles, by rw [hextractor, hsame]; exact h.memory⟩⟩
  | some source =>
    rw [hlook] at hasked hextractor
    obtain ⟨-, hreads, hnext⟩ := h.memory.look source s.files
    rw [hextractor, hasked]
    refine ⟨hreads, fun hgoes => ⟨hfiles, ?_⟩⟩
    obtain ⟨file, hok⟩ := h.file_ok_of_step hlook hgoes
    rw [hextractor, hasked]
    exact hnext file hok

/-- **A run**, behind any other steps. Induction on the steps of the run. -/
theorem getElem?_run (h : IsBehind start before s) {steps : List Step} {i : Nat} {answer : Answer} {reads : Nat}
    (hget : (s.run steps)[i]? = some (answer, reads)) :
    ∃ step, steps[i]? = some step ∧ answer = expected start (before ++ steps.take i) step ∧
      reads = sourceCount (lookUps start (before ++ steps.take (i + 1))) := by
  induction steps generalizing s before i with
  | nil => simp [run] at hget
  | cons step rest ih =>
    obtain ⟨hreads, hnext⟩ := h.step step
    rw [run] at hget
    cases i with
    | zero =>
      obtain ⟨rfl, rfl⟩ : (s.step step).1 = answer ∧ (s.step step).2.extractor.reads = reads := by
        simpa using hget
      exact ⟨step, rfl, by simpa using h.step_fst step, by simpa using hreads⟩
    | succ i =>
      rw [List.getElem?_cons_succ] at hget
      by_cases hends : (s.step step).1.endsSession = true
      · simp [hends] at hget
      · rw [if_neg hends] at hget
        have hbehind := hnext (Bool.eq_false_of_not_eq_true hends)
        obtain ⟨later, hlater, hanswer, hcount⟩ := ih hbehind hget
        exact ⟨later, hlater, by simpa using hanswer, by simpa using hcount⟩

end IsBehind

theorem isBehind_nil (files : MemoryStore) : IsBehind files [] ⟨files, .fresh⟩ where
  files := rfl
  memory := .fresh

/-- A session goes through all its steps, or up to one that ends it. -/
theorem length_run (s : Session) (steps : List Step) :
    (s.run steps).length = steps.length ∨
      ∃ last ∈ (s.run steps).getLast?, last.1.endsSession = true := by
  induction steps generalizing s with
  | nil => exact Or.inl rfl
  | cons step rest ih =>
    rw [run]
    dsimp only
    by_cases hends : (s.step step).1.endsSession = true
    · rw [if_pos hends]
      exact Or.inr ⟨_, rfl, hends⟩
    · rw [if_neg hends]
      rcases ih (s.step step).2 with hall | ⟨last, hlast, hlastEnds⟩
      · exact Or.inl (congrArg (· + 1) hall)
      · refine Or.inr ⟨last, ?_, hlastEnds⟩
        rw [List.getLast?_cons, Option.mem_def.mp hlast]
        rfl

/-- **A remembered source file is a snapshot.** A session goes through all its steps, or up to a source that has no
outline. Every step answers as it is to answer, and behind it each source that was looked up has been read once,
under each of its names. -/
theorem run_snapshot (files : MemoryStore) (steps : List Step) :
    (((⟨files, .fresh⟩ : Session).run steps).length = steps.length ∨
        ∃ last ∈ ((⟨files, .fresh⟩ : Session).run steps).getLast?, last.1.endsSession = true) ∧
      ∀ i answer reads, ((⟨files, .fresh⟩ : Session).run steps)[i]? = some (answer, reads) →
        ∃ step, steps[i]? = some step ∧ answer = expected files (steps.take i) step ∧
          reads = sourceCount (lookUps files (steps.take (i + 1))) :=
  ⟨length_run _ steps, fun _ _ _ hget => (isBehind_nil files).getElem?_run hget⟩

/-- A session in which a source is written anew, and then looked up by two names. -/
def rewriting : List Step :=
  [.extract "R.cs".toList "S".toList .empty, .write "R.cs".toList "class S;".toList,
    .extract "R.cs".toList "S".toList .empty, .extract "./R.cs".toList "S".toList .empty]

/-- The files before it. -/
def toRewrite : MemoryStore := .ofList [("R.cs".toList, "class R;".toList)]

theorem run_snapshot_rewriting :
    ((⟨toRewrite, .fresh⟩ : Session).run rewriting)[2]? =
        some (.extracted (.error (.excerptNotFound "S".toList "R.cs".toList)), 1) ∧
      expected toRewrite (rewriting.take 2) (.extract "R.cs".toList "S".toList .empty) =
        .extracted (.error (.excerptNotFound "S".toList "R.cs".toList)) ∧
      sourceCount (lookUps toRewrite rewriting) = 2 := by
  have hget : ((⟨toRewrite, .fresh⟩ : Session).run rewriting)[2]? =
      some (.extracted (.error (.excerptNotFound "S".toList "R.cs".toList)), 1) := by decide +kernel
  obtain ⟨step, hstep, hanswer, -⟩ := (run_snapshot toRewrite rewriting).2 2 _ _ hget
  obtain rfl := Option.some.inj hstep
  exact ⟨hget, hanswer.symm, by decide +kernel⟩

end Session

end Excerpt
