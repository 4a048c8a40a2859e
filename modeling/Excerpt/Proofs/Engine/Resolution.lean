import Excerpt.Proofs.Engine.View
import Mathlib.Data.List.Basic

/-!
# Excerpt — in which order a directive is resolved

What a directive names is looked up first: a formatter before an importer, and both before any extractor is asked for
anything. Only where it names no importer are the extractors asked in turn whether they can handle the source, up to
the first one that can; that one is asked for the excerpt, and its answer stands, be it a failure.

* **`Call`** — what an engine asks of its extractors, in the order in which it asks.
* **`Engine.Selects`**, **`Engine.SelectsNone`**, **`Engine.Resolves`** — the rules by which an extractor is chosen,
  none is, and the directive is carried out, each with the calls that are made for it.
* **`Engine.select_of_selects`**, **`Engine.select_of_selectsNone`** — the engine chooses by these rules.
* **`Engine.Resolves.congr`** — what does not answer a call does not matter.
* **`Engine.resolveInto_eq_iff`** — a directive is carried out by the rules, and by them alone.
-/

namespace Excerpt

/-- Carries out a directive and puts the text that it asks for behind `output`, which a failure leaves as it is. -/
def Engine.resolveInto (engine : Engine) (store : Store) (d : Directive) (output : Text) :
    Except Error Unit × Text × Engine :=
  match engine.resolve store d with
  | (.ok rendered, engine) => (.ok (), output ++ rendered, engine)
  | (.error e, engine) => (.error e, output, engine)

/-! ## The rules -/

/-- What an engine asks of the extractor at an index: whether it can handle the source, or for the excerpt. -/
inductive Call where
  | probe (index : Nat)
  | extract (index : Nat)

/-- The first extractors are probed in turn. -/
def Call.probes (count : Nat) : List Call := (List.range count).map .probe

/-- The renderer that a directive names, if it names one. -/
inductive Directive.NamesRenderer (d : Directive) : Option Renderer → Prop where
  | unnamed (hformatter : d.formatter = none) : d.NamesRenderer none
  | named {choice : Choice} {renderer : Renderer} (hformatter : d.formatter = some choice)
      (hname : Text.eqIgnoreCase renderer.name choice.name = true) : d.NamesRenderer (some renderer)

namespace Engine

section Rules

variable (store : Store) (engine : Engine) (d : Directive)

/-- The extractor that is chosen, with those before and behind it: the first one of the name that the directive gives,
for which none is probed; or, where it gives none, the first one that can handle the source. -/
inductive Selects : List Call → List Extractor → Extractor → List Extractor → Prop where
  | named {choice : Choice} {before after : List Extractor} {x : Extractor} (himporter : d.importer = some choice)
      (hparts : engine.extractors = before ++ x :: after)
      (hx : Text.eqIgnoreCase x.name choice.name = true)
      (hbefore : ∀ y ∈ before, Text.eqIgnoreCase y.name choice.name = false) : Selects [] before x after
  | probed {before after : List Extractor} {x : Extractor} (himporter : d.importer = none)
      (hparts : engine.extractors = before ++ x :: after)
      (hx : x.canHandle store d.source d.name = .ok ())
      (hbefore : ∀ y ∈ before, ∃ reason, y.canHandle store d.source d.name = .error reason) :
      Selects (Call.probes (before.length + 1)) before x after

/-- No extractor is chosen: none has the name that the directive gives; or it gives none, and each of them has a reason
not to handle the source. -/
inductive SelectsNone : List Call → Error → Prop where
  | unknownImporter {choice : Choice} (himporter : d.importer = some choice)
      (hunknown : ∀ x ∈ engine.extractors, Text.eqIgnoreCase x.name choice.name = false) :
      SelectsNone [] (.unknownImporter choice.name)
  | noImporter {reasons : List SourceError} (himporter : d.importer = none)
      (hreasons : engine.extractors.map (·.canHandle store d.source d.name) = reasons.map .error) :
      SelectsNone (Call.probes engine.extractors.length) (.noImporter d.source reasons)

/-- How a directive is carried out, with the calls that are made, what becomes of `output`, and the engine behind it. -/
inductive Resolves (output : Text) : List Call → Except Error Unit × Text × Engine → Prop where
  | unknownFormatter {choice : Choice} (hformatter : d.formatter = some choice)
      (hunknown : ∀ renderer : Renderer, Text.eqIgnoreCase renderer.name choice.name = false) :
      Resolves output [] (.error (.unknownFormatter choice.name), output, engine)
  | unselected {pinned : Option Renderer} {calls : List Call} {e : Error} (hpinned : d.NamesRenderer pinned)
      (hselect : SelectsNone store engine d calls e) : Resolves output calls (.error e, output, engine)
  | failed {pinned : Option Renderer} {calls : List Call} {before after : List Extractor} {x x' : Extractor} {e : Error}
      (hpinned : d.NamesRenderer pinned) (hselect : Selects store engine d calls before x after)
      (hextract : x.extract store d.source d.name d.importerOptions = (.error e, x')) :
      Resolves output (calls ++ [.extract before.length]) (.error e, output, ⟨before ++ x' :: after⟩)
  | rendered {pinned : Option Renderer} {calls : List Call} {before after : List Extractor} {x x' : Extractor}
      {fragment : Fragment} (hpinned : d.NamesRenderer pinned) (hselect : Selects store engine d calls before x after)
      (hextract : x.extract store d.source d.name d.importerOptions = (.ok fragment, x')) :
      Resolves output (calls ++ [.extract before.length])
        (.ok (), output ++ (pinned.getD x.preferredRenderer).render fragment d.formatterOptions,
          ⟨before ++ x' :: after⟩)

/-- The call has the same answer over two stores. -/
def AnswersAlike (store' : Store) : Call → Prop
  | .probe index => ∀ x ∈ engine.extractors[index]?,
      x.canHandle store' d.source d.name = x.canHandle store d.source d.name
  | .extract index => ∀ x ∈ engine.extractors[index]?,
      x.extract store' d.source d.name d.importerOptions = x.extract store d.source d.name d.importerOptions

end Rules

/-! ## Renderers -/

/-- No two renderers have one name. -/
theorem ofName?_eq_some_iff {s : Text} {r : Renderer} :
    Renderer.ofName? s = some r ↔ Text.eqIgnoreCase r.name s = true := by
  have hother : Text.eqIgnoreCase Renderer.codeBlock.name s = true →
      Text.eqIgnoreCase Renderer.raw.name s = false := by
    intro h
    have hnames : (Text.lower Renderer.raw.name == Text.lower Renderer.codeBlock.name) = false := by decide
    rwa [Text.eqIgnoreCase, ← beq_iff_eq.mp h]
  unfold Renderer.ofName?
  cases hcode : Text.eqIgnoreCase Renderer.codeBlock.name s with
  | true =>
    cases r with
    | codeBlock => simp [hcode]
    | raw => simp [hcode, hother hcode]
  | false =>
    cases r with
    | codeBlock => cases hraw : Text.eqIgnoreCase Renderer.raw.name s <;> simp [hcode, hraw]
    | raw => cases hraw : Text.eqIgnoreCase Renderer.raw.name s <;> simp [hcode, hraw]

theorem ofName?_eq_none_iff {s : Text} :
    Renderer.ofName? s = none ↔ ∀ r : Renderer, Text.eqIgnoreCase r.name s = false := by
  simp only [Option.eq_none_iff_forall_ne_some, ne_eq, ofName?_eq_some_iff, Bool.not_eq_true]

theorem pinnedRenderer_of_namesRenderer {d : Directive} {pinned : Option Renderer} (h : d.NamesRenderer pinned) :
    pinnedRenderer d = .ok pinned := by
  unfold pinnedRenderer
  cases h with
  | unnamed hformatter => rw [hformatter]
  | named hformatter hname =>
    rw [hformatter]
    dsimp only
    rw [ofName?_eq_some_iff.mpr hname]

/-- A renderer is named, or none is, or there is none of the name. -/
theorem namesRenderer_or_unknown (d : Directive) :
    (∃ pinned, d.NamesRenderer pinned) ∨
      ∃ choice, d.formatter = some choice ∧ ∀ r : Renderer, Text.eqIgnoreCase r.name choice.name = false := by
  cases hformatter : d.formatter with
  | none => exact Or.inl ⟨none, .unnamed hformatter⟩
  | some choice =>
    cases hname : Renderer.ofName? choice.name with
    | none => exact Or.inr ⟨choice, rfl, ofName?_eq_none_iff.mp hname⟩
    | some renderer => exact Or.inl ⟨some renderer, .named hformatter (ofName?_eq_some_iff.mp hname)⟩

/-! ## The choice of an extractor -/

variable {store : Store} {engine : Engine} {d : Directive}

/-- The first extractor that can handle the source is found behind those that cannot. Induction on these. -/
theorem probe_append {before after : List Extractor} {x : Extractor}
    (hbefore : ∀ y ∈ before, ∃ reason, y.canHandle store d.source d.name = .error reason)
    (hx : x.canHandle store d.source d.name = .ok ()) (start : Nat) :
    probe store d start (before ++ x :: after) = .ok (start + before.length, x) := by
  induction before generalizing start with
  | nil =>
    rw [List.nil_append, probe, hx]
    rfl
  | cons y before ih =>
    obtain ⟨reason, hreason⟩ := hbefore y List.mem_cons_self
    rw [List.cons_append, probe, hreason]
    dsimp only
    rw [ih (fun z hz => hbefore z (List.mem_cons_of_mem y hz)), List.length_cons, mapError_ok]
    congr 2
    omega

/-- Where none can handle the source, each gives its reason. Induction on the extractors. -/
theorem probe_of_map_eq {xs : List Extractor} {reasons : List SourceError}
    (h : xs.map (·.canHandle store d.source d.name) = reasons.map .error) (start : Nat) :
    probe store d start xs = .error reasons := by
  induction xs generalizing reasons start with
  | nil =>
    rw [List.map_nil, eq_comm, List.map_eq_nil_iff] at h
    rw [h, probe]
  | cons x xs ih =>
    obtain ⟨reason, reasons, rfl⟩ := List.exists_cons_of_ne_nil (l := reasons) (by rintro rfl; cases h)
    obtain ⟨hfirst, hrest⟩ := List.cons.inj h
    have hx : x.canHandle store d.source d.name = .error reason := hfirst
    rw [probe, hx]
    dsimp only
    rw [ih hrest, mapError_error]

/-- Some extractor is the first one that can handle the source, or none can. Induction on the extractors. -/
theorem exists_first_or_map_eq (store : Store) (d : Directive) (xs : List Extractor) :
    (∃ before x after, xs = before ++ x :: after ∧ x.canHandle store d.source d.name = .ok () ∧
        ∀ y ∈ before, ∃ reason, y.canHandle store d.source d.name = .error reason) ∨
      ∃ reasons : List SourceError, xs.map (·.canHandle store d.source d.name) = reasons.map .error := by
  induction xs with
  | nil => exact Or.inr ⟨[], rfl⟩
  | cons x xs ih =>
    cases hx : x.canHandle store d.source d.name with
    | ok _ => exact Or.inl ⟨[], x, xs, rfl, hx, by simp⟩
    | error reason =>
      rcases ih with ⟨before, y, after, rfl, hy, hbefore⟩ | ⟨reasons, hreasons⟩
      · refine Or.inl ⟨x :: before, y, after, rfl, hy, fun z hz => ?_⟩
        rcases List.mem_cons.mp hz with rfl | hmem
        · exact ⟨reason, hx⟩
        · exact hbefore z hmem
      · exact Or.inr ⟨reason :: reasons, by rw [List.map_cons, List.map_cons, hx, hreasons]⟩

/-- **The engine chooses by the rules**, where these choose an extractor. -/
theorem select_of_selects {calls : List Call} {before after : List Extractor} {x : Extractor}
    (h : Selects store engine d calls before x after) :
    engine.select store d = .ok (before.length, x) ∧ engine.extractors = before ++ x :: after := by
  unfold select
  cases h with
  | named himporter hparts hx hbefore =>
    refine ⟨?_, hparts⟩
    rw [himporter, hparts]
    dsimp only
    rw [List.findIdx?_append, List.findIdx?_eq_none_iff.mpr hbefore, List.findIdx?_cons, hx]
    simp
  | probed himporter hparts hx hbefore =>
    refine ⟨?_, hparts⟩
    rw [himporter, hparts]
    dsimp only
    rw [probe_append hbefore hx, mapError_ok, Nat.zero_add]

theorem select_of_selectsNone {calls : List Call} {e : Error} (h : SelectsNone store engine d calls e) :
    engine.select store d = .error e := by
  unfold select
  cases h with
  | unknownImporter himporter hunknown =>
    rw [himporter]
    dsimp only
    rw [List.findIdx?_eq_none_iff.mpr hunknown]
  | noImporter himporter hreasons =>
    rw [himporter]
    dsimp only
    rw [probe_of_map_eq hreasons, mapError_error]

/-- **The rules choose an extractor or none.** -/
theorem selects_or_selectsNone (store : Store) (engine : Engine) (d : Directive) :
    (∃ calls before x after, Selects store engine d calls before x after) ∨
      ∃ calls e, SelectsNone store engine d calls e := by
  cases himporter : d.importer with
  | some choice =>
    cases hfind : engine.extractors.find? fun x => Text.eqIgnoreCase x.name choice.name with
    | none => exact Or.inr ⟨[], _, .unknownImporter himporter (by simpa using hfind)⟩
    | some x =>
      obtain ⟨hx, before, after, hparts, hbefore⟩ := List.find?_eq_some_iff_append.mp hfind
      exact Or.inl ⟨[], before, x, after, .named himporter hparts hx (by simpa using hbefore)⟩
  | none =>
    rcases exists_first_or_map_eq store d engine.extractors with ⟨before, x, after, hparts, hx, hbefore⟩ | ⟨_, hreasons⟩
    · exact Or.inl ⟨_, before, x, after, .probed himporter hparts hx hbefore⟩
    · exact Or.inr ⟨_, _, .noImporter himporter hreasons⟩

/-! ## Carrying a directive out -/

variable {output : Text} {calls : List Call} {out : Except Error Unit × Text × Engine}

/-- **A directive is carried out by the rules.** -/
theorem resolveInto_of_resolves (h : Resolves store engine d output calls out) :
    engine.resolveInto store d output = out := by
  unfold resolveInto resolve
  cases h with
  | unknownFormatter hformatter hunknown =>
    rw [pinnedRenderer, hformatter]
    dsimp only
    rw [ofName?_eq_none_iff.mpr hunknown]
  | unselected hpinned hselect =>
    rw [pinnedRenderer_of_namesRenderer hpinned]
    dsimp only
    rw [select_of_selectsNone hselect]
  | failed hpinned hselect hextract =>
    obtain ⟨hchosen, hparts⟩ := select_of_selects hselect
    rw [pinnedRenderer_of_namesRenderer hpinned]
    dsimp only
    rw [hchosen]
    dsimp only
    rw [hextract, hparts]
    simp [Except.map]
  | rendered hpinned hselect hextract =>
    obtain ⟨hchosen, hparts⟩ := select_of_selects hselect
    rw [pinnedRenderer_of_namesRenderer hpinned]
    dsimp only
    rw [hchosen]
    dsimp only
    rw [hextract, hparts]
    simp [Except.map]

/-- **One of the rules applies.** -/
theorem exists_resolves (store : Store) (engine : Engine) (d : Directive) (output : Text) :
    ∃ calls out, Resolves store engine d output calls out := by
  rcases namesRenderer_or_unknown d with ⟨pinned, hpinned⟩ | ⟨choice, hformatter, hunknown⟩
  · rcases selects_or_selectsNone store engine d with ⟨calls, before, x, after, hselect⟩ | ⟨calls, e, hselect⟩
    · cases hextract : x.extract store d.source d.name d.importerOptions with
      | mk answer x' =>
        cases answer with
        | error e => exact ⟨_, _, .failed hpinned hselect hextract⟩
        | ok fragment => exact ⟨_, _, .rendered hpinned hselect hextract⟩
    · exact ⟨_, _, .unselected hpinned hselect⟩
  · exact ⟨_, _, .unknownFormatter hformatter hunknown⟩

/-! ## What is asked for -/

variable {store' : Store}

/-- The probes of the first extractors say what these can handle. -/
theorem canHandle_eq_of_probes {front back : List Extractor} (hparts : engine.extractors = front ++ back)
    (halike : ∀ call ∈ Call.probes front.length, AnswersAlike store engine d store' call) :
    ∀ x ∈ front, x.canHandle store' d.source d.name = x.canHandle store d.source d.name := by
  intro x hx
  obtain ⟨index, hlt, rfl⟩ := List.getElem_of_mem hx
  have hcall : Call.probe index ∈ Call.probes front.length :=
    List.mem_map.mpr ⟨index, List.mem_range.mpr hlt, rfl⟩
  apply halike _ hcall
  rw [hparts, List.getElem?_append_left hlt, List.getElem?_eq_getElem hlt]
  exact Option.mem_some_self _

theorem extract_eq_of_answersAlike {before after : List Extractor} {x : Extractor}
    (hparts : engine.extractors = before ++ x :: after)
    (halike : AnswersAlike store engine d store' (.extract before.length)) :
    x.extract store' d.source d.name d.importerOptions = x.extract store d.source d.name d.importerOptions := by
  apply halike
  rw [hparts, List.getElem?_append_right (Nat.le_refl _), Nat.sub_self]
  exact Option.mem_some_self x

theorem Selects.congr {before after : List Extractor} {x : Extractor} (h : Selects store engine d calls before x after)
    (halike : ∀ call ∈ calls, AnswersAlike store engine d store' call) :
    Selects store' engine d calls before x after := by
  cases h with
  | named himporter hparts hx hbefore => exact .named himporter hparts hx hbefore
  | probed himporter hparts hx hbefore =>
    have hfront : engine.extractors = (before ++ [x]) ++ after := by rw [hparts, List.append_assoc]; rfl
    have hsame := canHandle_eq_of_probes hfront (by rwa [List.length_append])
    refine .probed himporter hparts ?_ fun y hy => ?_
    · rw [hsame x (List.mem_append_right _ List.mem_cons_self), hx]
    · rw [hsame y (List.mem_append_left _ hy)]
      exact hbefore y hy

theorem SelectsNone.congr {e : Error} (h : SelectsNone store engine d calls e)
    (halike : ∀ call ∈ calls, AnswersAlike store engine d store' call) : SelectsNone store' engine d calls e := by
  cases h with
  | unknownImporter himporter hunknown => exact .unknownImporter himporter hunknown
  | noImporter himporter hreasons =>
    have hsame := canHandle_eq_of_probes (List.append_nil _).symm halike
    refine .noImporter himporter ?_
    rw [← hreasons]
    exact List.map_congr_left hsame

/-- **What does not answer a call does not matter:** where the calls have the same answers, so has the directive. -/
theorem Resolves.congr (h : Resolves store engine d output calls out)
    (halike : ∀ call ∈ calls, AnswersAlike store engine d store' call) : Resolves store' engine d output calls out := by
  cases h with
  | unknownFormatter hformatter hunknown => exact .unknownFormatter hformatter hunknown
  | unselected hpinned hselect => exact .unselected hpinned (hselect.congr halike)
  | failed hpinned hselect hextract =>
    have hprobes := hselect.congr fun call hcall => halike call (List.mem_append_left _ hcall)
    refine .failed hpinned hprobes ?_
    rw [extract_eq_of_answersAlike (select_of_selects hselect).2 (halike _ (by simp)), hextract]
  | rendered hpinned hselect hextract =>
    have hprobes := hselect.congr fun call hcall => halike call (List.mem_append_left _ hcall)
    refine .rendered hpinned hprobes ?_
    rw [extract_eq_of_answersAlike (select_of_selects hselect).2 (halike _ (by simp)), hextract]

/-- **A directive is carried out by the rules, and by them alone:** what comes of it is what a rule says, and it is the
same over every store that answers the calls of that rule alike, whatever else that store holds. -/
theorem resolveInto_eq_iff (store : Store) (engine : Engine) (d : Directive) (output : Text)
    (out : Except Error Unit × Text × Engine) :
    engine.resolveInto store d output = out ↔
      ∃ calls, Resolves store engine d output calls out ∧
        ∀ store', (∀ call ∈ calls, AnswersAlike store engine d store' call) →
          engine.resolveInto store' d output = out := by
  constructor
  · rintro rfl
    obtain ⟨calls, out, h⟩ := exists_resolves store engine d output
    rw [resolveInto_of_resolves h]
    exact ⟨calls, h, fun store' halike => resolveInto_of_resolves (h.congr halike)⟩
  · rintro ⟨calls, h, -⟩
    exact resolveInto_of_resolves h

/-- A source without the excerpt, and two extractors that can handle it behind one that cannot: the first of the two is
asked and fails, and the other one is not asked. -/
theorem resolveInto_eq_iff_absentExcerpt :
    let store := SourceExtractor.storeOf "class R;".toList
    let engine : Engine := ⟨[.benchmark 3, .sourceFiles .fresh, .sourceFiles .fresh]⟩
    let d : Directive := ⟨"R.cs".toList, "Q".toList, none, some ⟨"RAW".toList, none⟩⟩
    let failure : Error := .excerptNotFound "Q".toList "R.cs".toList
    ∃ x', Resolves store engine d "# R".toList [.probe 0, .probe 1, .extract 1]
        (.error failure, "# R".toList, ⟨[.benchmark 3, x', .sourceFiles .fresh]⟩) ∧
      engine.resolveInto store d "# R".toList =
        (.error failure, "# R".toList, ⟨[.benchmark 3, x', .sourceFiles .fresh]⟩) := by
  intro store engine d failure
  have hanswer : ((Extractor.sourceFiles .fresh).extract store d.source d.name d.importerOptions).1 = .error failure := by
    decide +kernel
  obtain ⟨x', hx'⟩ : ∃ x', ((Extractor.sourceFiles .fresh).extract store d.source d.name d.importerOptions).2 = x' :=
    ⟨_, rfl⟩
  have hextract := Prod.ext (y := (.error failure, x')) hanswer hx'
  have hselect : Selects store engine d (Call.probes 2) [.benchmark 3] (.sourceFiles .fresh) [.sourceFiles .fresh] := by
    have hcan : (Extractor.sourceFiles .fresh).canHandle store d.source d.name = .ok () := by decide +kernel
    have hcannot : ∀ y ∈ [Extractor.benchmark 3], ∃ reason, y.canHandle store d.source d.name = .error reason := by
      intro y hy
      rw [List.mem_singleton.mp hy]
      exact ⟨_, rfl⟩
    exact Selects.probed rfl rfl hcan hcannot
  have hnamed : d.NamesRenderer (some .raw) := .named rfl (by decide)
  have hrule : Resolves store engine d "# R".toList [.probe 0, .probe 1, .extract 1] _ :=
    .failed hnamed hselect hextract
  refine ⟨x', hrule, (resolveInto_eq_iff store engine d _ _).mpr ⟨_, hrule, fun store' halike => ?_⟩⟩
  exact resolveInto_of_resolves (hrule.congr halike)

end Engine

end Excerpt
