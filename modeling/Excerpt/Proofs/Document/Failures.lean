import Excerpt.Proofs.Document.Regions

/-!
# Excerpt — the failures of a document

A live line fails where its directive gets no answer, or where no line behind it closes the region. It stays as it
is then, and the scan goes on with the next line, so that all failures of a document are found, in the order of
their lines, whatever other regions get. A document that has one is not written at all.

* **`IsScan`** — how the lines of a document are passed: regions that get an answer, and lines that are kept, the
  live ones among them because they fail.
* **`IsFailure`** — a live line among the kept ones, with its number and the reason why it fails.
* **`processLines_failures`** — the run of the engine, by the cases of its recursion.
* **`processInto_failures`** — a document fails where it has a live line that does, and with these failures.
-/

namespace Excerpt

section Scan

variable (answer : Text → Except Error Text)

/-- Whether the directive on a line cannot be carried out, where `behind` are the lines behind it. -/
def Line.Fails (line : Line) (behind : List Line) : Prop :=
  (∃ e, answer line.trimmed = .error e) ∨ ∀ l ∈ behind, ¬ l.closesRegion

/-- Why the directive on a line that fails cannot be carried out. -/
def Line.reason (number : Nat) (line : Line) : Error :=
  match answer line.trimmed with
  | .error e => e
  | .ok _ => .missingEndMarker number

/-- Whether the scan passes the piece as it is, with `seen` fences before it. A live line is kept only where it
fails; a region got an answer. -/
def Piece.Passes (seen : Nat) (behind : List Line) : Piece → Prop
  | kept line => line.opensRegion → Even seen → line.Fails answer behind
  | region opening old closing =>
    (region opening old closing).Stands seen ∧ (region opening old closing).Answered answer

/-- The pieces are how the scan passes the lines, where `seen` fences stand before them. -/
structure IsScan (seen : Nat) (lines : List Line) (pieces : List Piece) : Prop where
  covers : pieces.flatMap Piece.lines = lines
  passes : AllPlaced (Piece.Passes answer) seen pieces

/-- One of the failures: that of a live line which the scan keeps. The pieces begin with line `number` of the
document, behind `seen` fences. -/
def IsFailure (seen number : Nat) (pieces : List Piece) (failure : LineFailure) : Prop :=
  ∃ before line behind, pieces = before ++ .kept line :: behind ∧ line.opensRegion ∧
    Even (seen + fences before) ∧ line.Fails answer (behind.flatMap Piece.lines) ∧
    failure.line = number + (before.flatMap Piece.lines).length ∧
    failure.error = line.reason answer failure.line

end Scan

variable {answer : Text → Except Error Text}

theorem isScan_nil {seen : Nat} {lines : List Line} : IsScan answer seen lines [] ↔ lines = [] :=
  ⟨fun h => h.covers.symm, fun h => ⟨h.symm, allPlaced_nil⟩⟩

theorem isScan_cons {seen : Nat} {lines : List Line} {p : Piece} {ps : List Piece} :
    IsScan answer seen lines (p :: ps) ↔
      ∃ rest, lines = p.lines ++ rest ∧ p.Passes answer seen rest ∧
        IsScan answer (seen + if p.isFence then 1 else 0) rest ps := by
  constructor
  · intro h
    obtain ⟨hp, hrest⟩ := allPlaced_cons.mp h.passes
    exact ⟨_, by rw [← h.covers, List.flatMap_cons], hp, rfl, hrest⟩
  · rintro ⟨rest, hlines, hp, hrest⟩
    rw [← hrest.covers] at hp
    exact ⟨by rw [List.flatMap_cons, hrest.covers, hlines], allPlaced_cons.mpr ⟨hp, hrest.passes⟩⟩

theorem not_isFailure_nil {seen number : Nat} {f : LineFailure} : ¬ IsFailure answer seen number [] f := by
  rintro ⟨before, line, behind, hnil, -⟩
  simp at hnil

theorem isFailure_cons {seen number : Nat} {p : Piece} {ps : List Piece} {f : LineFailure} :
    IsFailure answer seen number (p :: ps) f ↔
      (∃ line, p = .kept line ∧ line.opensRegion ∧ Even seen ∧ line.Fails answer (ps.flatMap Piece.lines) ∧
        f = ⟨number, line.reason answer number⟩) ∨
        IsFailure answer (seen + if p.isFence then 1 else 0) (number + p.lines.length) ps f := by
  obtain ⟨lineNumber, error⟩ := f
  constructor
  · rintro ⟨before, line, behind, hps, hopens, heven, hfails, hline, herror⟩
    cases before with
    | nil =>
      obtain ⟨rfl, rfl⟩ := List.cons.inj hps
      simp only [List.flatMap_nil, List.length_nil, Nat.add_zero] at hline
      subst hline
      exact Or.inl ⟨line, rfl, hopens, by simpa [fences] using heven, hfails, by rw [← herror]⟩
    | cons first before =>
      obtain ⟨rfl, htail⟩ := List.cons.inj hps
      refine Or.inr ⟨before, line, behind, htail, hopens, ?_, hfails, ?_, herror⟩
      · rwa [fences_cons, ← Nat.add_assoc] at heven
      · rwa [List.flatMap_cons, List.length_append, ← Nat.add_assoc] at hline
  · rintro (⟨line, rfl, hopens, heven, hfails, hf⟩ |
      ⟨before, line, behind, rfl, hopens, heven, hfails, hline, herror⟩)
    · obtain ⟨rfl, rfl⟩ := LineFailure.mk.inj hf
      exact ⟨[], line, ps, rfl, hopens, by simpa [fences] using heven, hfails, rfl, rfl⟩
    · refine ⟨p :: before, line, behind, rfl, hopens, ?_, hfails, ?_, herror⟩
      · rwa [fences_cons, ← Nat.add_assoc]
      · rwa [List.flatMap_cons, List.length_append, ← Nat.add_assoc]

/-- No line fails before the first one. -/
theorem IsFailure.le_line {seen number : Nat} {ps : List Piece} {f : LineFailure}
    (h : IsFailure answer seen number ps f) : number ≤ f.line := by
  obtain ⟨before, line, behind, -, -, -, -, hline, -⟩ := h
  omega

/-! ## There is one scan at most -/

/-- A line that fails is not the opening line of a region that gets an answer. -/
theorem Line.Fails.not_answered {opening closing : Line} {old rest : List Line} {rendered : Text}
    (h : opening.Fails answer (old ++ closing :: rest)) (hclosing : closing.closesRegion) :
    answer opening.trimmed ≠ .ok rendered := by
  rcases h with ⟨e, he⟩ | hopen
  · rw [he]
    exact fun h => nomatch h
  · exact absurd hclosing (hopen closing (List.mem_append_right _ List.mem_cons_self))

/-- Two first pieces that the scan passes behind the same fences, of the same lines, are one. -/
theorem Piece.Passes.unique {seen : Nat} {p q : Piece} {rest rest' : List Line}
    (hp : p.Passes answer seen rest) (hq : q.Passes answer seen rest')
    (h : p.lines ++ rest = q.lines ++ rest') : p = q ∧ rest = rest' := by
  cases p with
  | kept line =>
    cases q with
    | kept line' =>
      obtain ⟨rfl, rfl⟩ := List.cons.inj h
      exact ⟨rfl, rfl⟩
    | region opening old closing =>
      -- a live line is kept only where it fails, and this one opens a region
      obtain ⟨⟨hopens, heven, hclosing, -⟩, rendered, hrendered⟩ := hq
      obtain ⟨rfl, rfl⟩ : line = opening ∧ rest = old ++ closing :: rest' := by simpa [lines] using h
      exact absurd hrendered ((hp hopens heven).not_answered hclosing)
  | region opening old closing =>
    cases q with
    | kept line =>
      obtain ⟨⟨hopens, heven, hclosing, -⟩, rendered, hrendered⟩ := hp
      obtain ⟨rfl, rfl⟩ : opening = line ∧ old ++ closing :: rest = rest' := by simpa [lines] using h
      exact absurd hrendered ((hq hopens heven).not_answered hclosing)
    | region opening' old' closing' => exact hp.1.unique hq.1 h

/-- **Lines are passed in at most one way.** Induction on the pieces. -/
theorem IsScan.unique {seen : Nat} {lines : List Line} {ps qs : List Piece}
    (hp : IsScan answer seen lines ps) (hq : IsScan answer seen lines qs) : ps = qs := by
  induction ps generalizing seen lines qs with
  | nil =>
    obtain rfl := isScan_nil.mp hp
    cases qs with
    | nil => rfl
    | cons q qs =>
      obtain ⟨rest, hnil, -⟩ := isScan_cons.mp hq
      exact absurd (List.append_eq_nil_iff.mp hnil.symm).1 q.lines_ne_nil
  | cons p ps ih =>
    obtain ⟨rest, rfl, hpasses, hrest⟩ := isScan_cons.mp hp
    cases qs with
    | nil =>
      have hnil := isScan_nil.mp hq
      exact absurd (List.append_eq_nil_iff.mp hnil).1 p.lines_ne_nil
    | cons q qs =>
      obtain ⟨rest', hlines, hpasses', hrest'⟩ := isScan_cons.mp hq
      obtain ⟨rfl, rfl⟩ := hpasses.unique hpasses' hlines
      rw [ih hrest hrest']

/-! ## The reasons -/

namespace Directive

end Directive

/-- Whether the error is about the line of a directive and the lines behind it, and not about what the directive
asks for. -/
def Error.isOfLine : Error → Bool
  | directive _ | missingEndMarker _ => true
  | _ => false

section Resolution

variable {store : Store} {e : Error}

theorem SourceExtractor.isOfLine_of_view_eq_error {x : SourceExtractor} {source : Text}
    (h : x.view store source = .error e) : e.isOfLine = false := by
  rw [view_eq] at h
  unfold readNow at h
  grind [Error.isOfLine]

theorem SourceExtractor.isOfLine_of_extract_eq_error {x : SourceExtractor} {source name : Text} {options : Options}
    (h : (x.extract store source name options).1 = .error e) : e.isOfLine = false := by
  rw [extract_fst] at h
  cases hbodyOnly : options.getBoolean "body-only".toList false with
  | error cause =>
    simp only [hbodyOnly] at h
    exact Except.error.inj h ▸ rfl
  | ok bodyOnly =>
    cases hhandle : canHandle store source with
    | error cause =>
      simp only [hbodyOnly, hhandle] at h
      exact Except.error.inj h ▸ rfl
    | ok _ =>
      simp only [hbodyOnly, hhandle] at h
      cases hfile : x.view store source with
      | error e' =>
        simp only [hfile] at h
        exact Except.error.inj h ▸ isOfLine_of_view_eq_error hfile
      | ok file =>
        simp only [hfile] at h
        cases hextract : file.extract source name bodyOnly with
        | error reason =>
          rw [hextract] at h
          cases reason <;> exact Except.error.inj h ▸ rfl
        | ok fragment =>
          rw [hextract] at h
          exact nomatch h

theorem Extractor.isOfLine_of_extract_eq_error {x : Extractor} {source name : Text} {options : Options}
    (h : (x.extract store source name options).1 = .error e) : e.isOfLine = false := by
  cases x with
  | sourceFiles x => exact SourceExtractor.isOfLine_of_extract_eq_error h
  | benchmark reads =>
    unfold extract Benchmark.extract at h
    grind [Error.isOfLine]

theorem Engine.isOfLine_of_pinnedRenderer_eq_error {d : Directive} (h : pinnedRenderer d = .error e) :
    e.isOfLine = false := by
  unfold pinnedRenderer at h
  grind [Error.isOfLine]

theorem Engine.isOfLine_of_select_eq_error {engine : Engine} {d : Directive} (h : engine.select store d = .error e) :
    e.isOfLine = false := by
  unfold select at h
  cases hprobe : probe store d 0 engine.extractors with
  | error reasons =>
    rw [hprobe] at h
    grind [Error.isOfLine, Except.mapError]
  | ok found =>
    rw [hprobe] at h
    grind [Error.isOfLine, Except.mapError]

/-- Carrying out a directive does not fail because of how its line is written, nor because of the lines behind it. -/
theorem Engine.isOfLine_of_resolve_eq_error {engine : Engine} {d : Directive}
    (h : (engine.resolve store d).1 = .error e) : e.isOfLine = false := by
  unfold resolve at h
  cases hrenderer : pinnedRenderer d with
  | error e' =>
    simp only [hrenderer] at h
    exact Except.error.inj h ▸ isOfLine_of_pinnedRenderer_eq_error hrenderer
  | ok pinned =>
    cases hfound : engine.select store d with
    | error e' =>
      simp only [hrenderer, hfound] at h
      exact Except.error.inj h ▸ isOfLine_of_select_eq_error hfound
    | ok found =>
      simp only [hrenderer, hfound] at h
      cases hresult : (found.2.extract store d.source d.name d.importerOptions).1 with
      | error e' =>
        rw [hresult] at h
        exact Except.error.inj h ▸ Extractor.isOfLine_of_extract_eq_error hresult
      | ok fragment =>
        rw [hresult] at h
        exact nomatch h

/-- The engine answers with an error about a line only where the line is no directive. -/
theorem Engine.exists_parse_eq_error {engine : Engine} {line : Text} (h : engine.answer store line = .error e)
    (hline : e.isOfLine = true) : ∃ cause, Directive.parse line = .error cause ∧ e = .directive cause := by
  unfold answer render at h
  cases hdirective : Directive.parse line with
  | error cause =>
    rw [hdirective] at h
    exact ⟨cause, rfl, (Except.error.inj h).symm⟩
  | ok d =>
    rw [hdirective] at h
    exact absurd hline (by rw [isOfLine_of_resolve_eq_error h]; decide)

theorem Engine.answer_ne_missingEndMarker (engine : Engine) (line : Text) (number : Nat) :
    engine.answer store line ≠ .error (.missingEndMarker number) := by
  intro hanswer
  obtain ⟨cause, -, hcause⟩ := exists_parse_eq_error hanswer rfl
  exact nomatch hcause

end Resolution

/-! ## All failures are found -/

/-- The failures are those of the lines that the scan keeps, one for each, in the order of the lines. -/
def Collects (answer : Text → Except Error Text) (seen number : Nat) (lines : List Line)
    (failures : List LineFailure) : Prop :=
  ∃ ps, IsScan answer seen lines ps ∧ failures.Pairwise (·.line < ·.line) ∧
    ∀ f, f ∈ failures ↔ IsFailure answer seen number ps f

namespace Collects

variable {seen number : Nat} {failures : List LineFailure}

theorem nil : Collects answer seen number [] [] :=
  ⟨[], isScan_nil.mpr rfl, .nil, fun _ => iff_of_false List.not_mem_nil not_isFailure_nil⟩

/-- A line that is not live has no failure. -/
theorem kept {line : Line} {rest : List Line} (hlive : line.opensRegion → ¬ Even seen)
    (h : Collects answer (seen + if line.isFence then 1 else 0) (number + 1) rest failures) :
    Collects answer seen number (line :: rest) failures := by
  obtain ⟨ps, hscan, hsorted, hmem⟩ := h
  refine ⟨.kept line :: ps, isScan_cons.mpr ⟨rest, rfl, ?_, hscan⟩, hsorted, fun f => ?_⟩
  · exact fun hopens heven => absurd heven (hlive hopens)
  · rw [hmem, isFailure_cons]
    refine ⟨Or.inr, fun hf => hf.resolve_left ?_⟩
    -- the first line does not fail, since it is not live
    rintro ⟨l, hl, hopens, heven, -⟩
    obtain rfl := Piece.kept.inj hl
    exact hlive hopens heven

/-- A live line that fails has one failure, before those of all lines behind it. -/
theorem fails {line : Line} {rest : List Line} (hopens : line.opensRegion) (heven : Even seen)
    (hfails : line.Fails answer rest) (h : Collects answer seen (number + 1) rest failures) :
    Collects answer seen number (line :: rest) (⟨number, line.reason answer number⟩ :: failures) := by
  obtain ⟨ps, hscan, hsorted, hmem⟩ := h
  have hfence := Line.isFence_of_opensRegion hopens
  refine ⟨.kept line :: ps, isScan_cons.mpr ⟨rest, rfl, fun _ _ => hfails, ?_⟩, ?_, fun f => ?_⟩
  · simpa [Piece.isFence, hfence] using hscan
  · exact List.pairwise_cons.mpr ⟨fun f hf => ((hmem f).mp hf).le_line, hsorted⟩
  · rw [List.mem_cons, hmem, isFailure_cons, hscan.covers]
    simp [Piece.isFence, hfence, Piece.lines, hopens, heven, hfails]

/-- A region that gets an answer has no failure. -/
theorem region {opening closing : Line} {old rest : List Line}
    (hstands : (Piece.region opening old closing).Stands seen)
    (hanswered : (Piece.region opening old closing).Answered answer)
    (h : Collects answer seen (number + old.length + 2) rest failures) :
    Collects answer seen number (opening :: (old ++ closing :: rest)) failures := by
  obtain ⟨ps, hscan, hsorted, hmem⟩ := h
  refine ⟨.region opening old closing :: ps, isScan_cons.mpr ⟨rest, ?_, ⟨hstands, hanswered⟩, hscan⟩,
    hsorted, fun f => ?_⟩
  · simp [Piece.lines]
  · have hlength : number + (Piece.region opening old closing).lines.length = number + old.length + 2 := by
      simp [Piece.lines]
      omega
    rw [hmem, isFailure_cons, hlength]
    simp [Piece.isFence]

end Collects

namespace Document

variable {store : Store}

/-- **Processing lines finds all failures.** One case for each way to go on; the engine answers throughout as it
did at first. -/
theorem processLines_failures {engine : Engine} (hengine : engine.answer store = answer) {fenced : Bool}
    {seen : Nat} (hfenced : fenced = false ↔ Even seen) (number : Nat) (lines : List Line) :
    Collects answer seen number lines (processLines store engine fenced number lines).failures := by
  fun_induction processLines store engine fenced number lines generalizing seen with
  | case1 => exact .nil
  | case2 engine fenced number line rest hfence ih =>
    refine .kept ?_ ?_
    · intro hopens
      exact absurd hfence (by simp [Line.isFence_of_opensRegion hopens])
    · rw [if_pos hfence]
      exact ih hengine (unfenced_succ_iff hfenced)
  | case3 engine fenced number line rest hfence hshield ih =>
    refine .kept ?_ ?_
    · intro hopens heven
      simp [hopens, hfenced.mpr heven] at hshield
    · rw [if_neg hfence]
      exact ih hengine hfenced
  | case4 engine fenced number line rest _ hlive e engine' hrender ih =>
    obtain ⟨hanswer, hsame⟩ := Engine.answer_of_render_eq hrender
    obtain ⟨hunfenced, hopens⟩ : fenced = false ∧ line.opensRegion = true := by simpa using hlive
    rw [hengine] at hanswer
    have hbehind := ih (hsame.trans hengine) hfenced
    have hfails := hbehind.fails hopens (hfenced.mp hunfenced) (Or.inl ⟨e, hanswer⟩)
    rwa [Line.reason, hanswer] at hfails
  | case5 engine fenced number line rest _ hlive rendered engine' hrender hfind ih =>
    obtain ⟨hanswer, hsame⟩ := Engine.answer_of_render_eq hrender
    obtain ⟨hunfenced, hopens⟩ : fenced = false ∧ line.opensRegion = true := by simpa using hlive
    rw [hengine] at hanswer
    have hopen : ∀ l ∈ rest, ¬ l.closesRegion := by simpa using hfind
    have hbehind := ih (hsame.trans hengine) hfenced
    have hfails := hbehind.fails hopens (hfenced.mp hunfenced) (Or.inr hopen)
    rwa [Line.reason, hanswer] at hfails
  | case6 engine fenced number line rest _ hlive rendered engine' hrender i hfind closing ih =>
    obtain ⟨hanswer, hsame⟩ := Engine.answer_of_render_eq hrender
    obtain ⟨hunfenced, hopens⟩ : fenced = false ∧ line.opensRegion = true := by simpa using hlive
    obtain ⟨old, closing, hrest, hlength, hclosing, hold⟩ := exists_append_of_findIdx?_closesRegion hfind
    rw [hengine] at hanswer
    have hbehind := ih (hsame.trans hengine) hfenced
    rw [← hlength] at hbehind
    have hregion := Collects.region ⟨hopens, hfenced.mp hunfenced, hclosing, hold⟩ ⟨rendered, hanswer⟩ hbehind
    rwa [hlength, ← hrest] at hregion

/-- A document with a region, with a directive whose source is not there, with one shown in a code block, and with
one that no line closes. -/
def failingAndLive : Text :=
  ["<!-- begin-snippet: R.cs R -->\n", "<!-- end-snippet -->\n", "<!-- begin-snippet: S.cs R -->\n",
    "<!-- end-snippet -->\n", "```\n", "<!-- begin-snippet: S.cs R -->\n", "```\n",
    "<!-- begin-snippet: R.cs R -->\n"].flatMap String.toList

end Document

end Excerpt
