import Excerpt.Proofs.Document.Division
import Excerpt.Proofs.Engine.View
import Excerpt.Store.Memory

/-!
# Excerpt — what processing a document writes

Processing that succeeds writes the document again with the content of each region renewed, and touches
nothing else. The pieces of the document and the answers of the engine say what is written.

* **`view_processLines`** — processing lines keeps what the engine takes its excerpts from, so that each
  directive gets the answer which the engine would have given at the start.
* **`processLines_of_isDivision`** — where the lines divide and each region gets an answer, the pieces
  are written in order, and nothing fails.
* **`exists_isDivision_of_failures_eq_nil`** — where nothing fails, the lines divide and each region gets
  an answer.
* **`processInto_writes_regions`** — both together for a document.
-/

namespace Excerpt

namespace Piece

/-- The directive of the piece, if it has one, gets an answer. -/
def Answered (answer : Text → Except Error Text) : Piece → Prop
  | kept _ => True
  | region opening _ _ => ∃ rendered, answer opening.trimmed = .ok rendered

/-- What is written for the piece: a line as it is; a region with the answer to its directive for the
lines that it holds, each line feed of the answer written as the terminator of the opening line, and
with the end marker, terminated as before, for its closing line. -/
def renewed (answer : Text → Except Error Text) : Piece → Text
  | kept line => line.written
  | region opening _ closing =>
    let rendered := (answer opening.trimmed).toOption.getD []
    opening.written ++ Text.withTerminator opening.terminator rendered ++ Directive.endMarker ++
      closing.terminator.text

theorem renewed_region {answer : Text → Except Error Text} {opening closing : Line}
    {old : List Line} {rendered : Text} (h : answer opening.trimmed = .ok rendered) :
    (region opening old closing).renewed answer =
      opening.written ++ Text.withTerminator opening.terminator rendered ++ Directive.endMarker ++
        closing.terminator.text := by
  simp [renewed, h, Except.toOption]

/-- Where there is no region, what is written for the pieces is what stood there. -/
theorem flatMap_renewed_of_forall_not_isRegion {answer : Text → Except Error Text}
    {pieces : List Piece} (h : ∀ p ∈ pieces, ¬ p.isRegion = true) :
    pieces.flatMap (renewed answer) = pieces.flatMap written := by
  have hkept : ∀ p ∈ pieces, p.renewed answer = p.written := by
    intro p hp
    cases p with
    | kept line => exact (List.append_nil line.written).symm
    | region opening old closing => exact absurd rfl (h _ hp)
  rw [List.flatMap_def, List.flatMap_def, List.map_congr_left hkept]

end Piece

namespace Document

variable {store : Store}

/-! ## The engine behind the document -/

/-- **Processing lines keeps the view of the engine.** One case for each way to go on. -/
theorem view_processLines (store : Store) (engine : Engine) (fenced : Bool) (number : Nat)
    (lines : List Line) :
    (processLines store engine fenced number lines).engine.view store = engine.view store := by
  fun_induction processLines store engine fenced number lines with
  | case1 => rfl
  | case2 engine fenced number line rest _ ih => exact ih
  | case3 engine fenced number line rest _ _ ih => exact ih
  | case4 engine fenced number line rest _ _ e engine' hrender ih =>
    have hview := Engine.view_render store engine line.trimmed
    rw [hrender] at hview
    exact ih.trans hview
  | case5 engine fenced number line rest _ _ rendered engine' hrender _ ih =>
    have hview := Engine.view_render store engine line.trimmed
    rw [hrender] at hview
    exact ih.trans hview
  | case6 engine fenced number line rest _ _ rendered engine' hrender i _ closing ih =>
    have hview := Engine.view_render store engine line.trimmed
    rw [hrender] at hview
    exact ih.trans hview

theorem view_process (store : Store) (engine : Engine) (text : Text) :
    (process store engine text).2.view store = engine.view store :=
  view_processLines store engine false 1 (Text.lines text)

/-! ## Pieces are written in order -/

theorem findIdx?_closesRegion {old : List Line} {closing : Line} (rest : List Line)
    (hold : ∀ l ∈ old, ¬ l.closesRegion) (hclosing : closing.closesRegion) :
    (old ++ closing :: rest).findIdx? Line.closesRegion = some old.length := by
  rw [List.findIdx?_append, List.findIdx?_eq_none_iff.mpr (by simpa using hold)]
  simp [List.findIdx?_cons, hclosing]

/-- The line that closes a region is the first one that can. -/
theorem exists_append_of_findIdx?_closesRegion {lines : List Line} {i : Nat}
    (h : lines.findIdx? Line.closesRegion = some i) :
    ∃ old closing, lines = old ++ closing :: lines.drop (i + 1) ∧ old.length = i ∧
      closing.closesRegion ∧ ∀ l ∈ old, ¬ l.closesRegion := by
  obtain ⟨hi, hclosing, hold⟩ := List.findIdx?_eq_some_iff_getElem.mp h
  refine ⟨lines.take i, lines[i], by simp, List.length_take_of_le (Nat.le_of_lt hi), hclosing, ?_⟩
  intro l hl
  obtain ⟨j, hj, rfl⟩ := List.mem_take_iff_getElem.mp hl
  exact hold j (by omega)

/-- A fence line turns `fenced`, and it is one more fence that was seen. -/
theorem unfenced_succ_iff {fenced : Bool} {seen : Nat} (h : fenced = false ↔ Even seen) :
    (! fenced) = false ↔ Even (seen + 1) := by
  rw [Nat.even_add_one, ← h]
  cases fenced <;> simp

/-- Behind a kept line there may be one more fence. -/
theorem unfenced_xor_iff {fenced : Bool} {seen : Nat} (h : fenced = false ↔ Even seen) (line : Line) :
    (fenced ^^ line.isFence) = false ↔ Even (seen + if line.isFence then 1 else 0) := by
  cases hfence : line.isFence with
  | false => simpa using h
  | true =>
    rw [Bool.xor_true, if_pos rfl]
    exact unfenced_succ_iff h

/-- How processing goes on behind a line that is not live. -/
theorem processLines_kept {seen : Nat} {line : Line} (hstands : (Piece.kept line).Stands seen) {fenced : Bool}
    (hfenced : fenced = false ↔ Even seen) (engine : Engine) (number : Nat) (rest : List Line) :
    processLines store engine fenced number (line :: rest) =
      (processLines store engine (fenced ^^ line.isFence) (number + 1) rest).keep line.written := by
  rw [processLines]
  cases hfence : line.isFence with
  | true => rw [if_pos rfl, Bool.xor_true]
  | false =>
    have hshield : (fenced || ! line.opensRegion) = true := by
      by_cases hopens : line.opensRegion = true
      · have hne : fenced ≠ false := fun hf => hstands hopens (hfenced.mp hf)
        simp [hne]
      · simp [hopens]
    rw [if_neg Bool.false_ne_true, if_pos hshield, Bool.xor_false]

/-- How processing goes on behind a region whose directive gets an answer. -/
theorem processLines_region {seen : Nat} {opening closing : Line} {old : List Line} {rendered : Text}
    (hstands : (Piece.region opening old closing).Stands seen) {engine engine' : Engine}
    (hrender : engine.render store opening.trimmed = (.ok rendered, engine')) (number : Nat) (rest : List Line) :
    processLines store engine false number ((Piece.region opening old closing).lines ++ rest) =
      ((processLines store engine' false (number + old.length + 2) rest).replace opening.terminator
        closing.terminator rendered).keep opening.written := by
  obtain ⟨hopens, -, hclosing, hold⟩ := hstands
  have hfence := Line.isFence_of_opensRegion hopens
  have hfind := findIdx?_closesRegion rest hold hclosing
  rw [show (Piece.region opening old closing).lines ++ rest = opening :: (old ++ closing :: rest) from by
    simp [Piece.lines], processLines]
  simp only [hfence, Bool.false_eq_true, if_false, Bool.false_or, hopens, Bool.not_true, hrender, hfind]
  rw [show (old ++ closing :: rest).drop (old.length + 1) = rest from by
    simp [List.drop_append, List.drop_eq_nil_of_le]]
  simp

/-- **Lines that divide are processed without a failure, where each region gets an answer.** Induction
on the pieces: the answers are those of the first engine throughout. -/
theorem processLines_of_isDivision {answer : Text → Except Error Text} {engine : Engine}
    (hengine : engine.answer store = answer) {seen : Nat} {lines : List Line} {ps : List Piece}
    (h : IsDivision seen lines ps) (hans : ∀ p ∈ ps, p.Answered answer) {fenced : Bool}
    (hfenced : fenced = false ↔ Even seen) (number : Nat) :
    let result := processLines store engine fenced number lines
    result.text = ps.flatMap (Piece.renewed answer) ∧ result.changed = ps.any Piece.isRegion ∧
      result.failures = [] := by
  induction ps generalizing seen lines engine fenced number with
  | nil =>
    obtain rfl := isDivision_nil.mp h
    simp [processLines]
  | cons p ps ih =>
    obtain ⟨rest, rfl, hstands, hrest⟩ := isDivision_cons.mp h
    have hansRest : ∀ q ∈ ps, q.Answered answer := fun q hq => hans q (List.mem_cons_of_mem p hq)
    cases p with
    | kept line =>
      obtain ⟨htext, hchanged, hfail⟩ := ih hengine hrest hansRest (unfenced_xor_iff hfenced line) (number + 1)
      rw [show (Piece.kept line).lines ++ rest = line :: rest from rfl, processLines_kept hstands hfenced]
      exact ⟨congrArg (line.written ++ ·) htext, hchanged, hfail⟩
    | region opening old closing =>
      obtain ⟨rendered, hrendered⟩ := hans _ List.mem_cons_self
      obtain rfl : fenced = false := hfenced.mpr hstands.2.1
      -- the engine behind this region answers as the first one did
      obtain ⟨engine', hrender⟩ : ∃ engine', engine.render store opening.trimmed =
          (.ok rendered, engine') := by
        rw [← hengine] at hrendered
        exact ⟨_, Prod.ext hrendered rfl⟩
      have hengine' := (Engine.answer_of_render_eq hrender).2.trans hengine
      obtain ⟨htext, hchanged, hfail⟩ := ih hengine' hrest hansRest hfenced (number + old.length + 2)
      rw [processLines_region hstands hrender]
      refine ⟨?_, rfl, hfail⟩
      simp only [Processed.keep, Processed.replace]
      rw [htext, List.flatMap_cons, Piece.renewed_region hrendered]
      simp

/-! ## Without a failure every live line opens a region -/

/-- **Lines that are processed without a failure divide, and each region gets an answer.** -/
theorem exists_isDivision_of_failures_eq_nil {answer : Text → Except Error Text} {engine : Engine}
    (hengine : engine.answer store = answer) (seen : Nat) (lines : List Line) {fenced : Bool}
    (hfenced : fenced = false ↔ Even seen) {number : Nat}
    (h : (processLines store engine fenced number lines).failures = []) :
    ∃ ps, IsDivision seen lines ps ∧ ∀ p ∈ ps, p.Answered answer := by
  fun_induction processLines store engine fenced number lines generalizing seen with
  | case1 => exact ⟨[], isDivision_nil.mpr rfl, by simp⟩
  | case2 engine fenced number line rest hfence ih =>
    obtain ⟨ps, hps, hans⟩ := ih hengine (seen + 1) (unfenced_succ_iff hfenced) h
    refine ⟨.kept line :: ps, isDivision_cons.mpr ⟨rest, rfl, ?_, ?_⟩, ?_⟩
    · intro hopens
      exact absurd hfence (by simp [Line.isFence_of_opensRegion hopens])
    · simpa [Piece.isFence, hfence] using hps
    · exact List.forall_mem_cons.mpr ⟨trivial, hans⟩
  | case3 engine fenced number line rest hfence hshield ih =>
    obtain ⟨ps, hps, hans⟩ := ih hengine seen hfenced h
    refine ⟨.kept line :: ps, isDivision_cons.mpr ⟨rest, rfl, ?_, ?_⟩, ?_⟩
    · intro hopens heven
      simp [hopens, hfenced.mpr heven] at hshield
    · simpa [Piece.isFence, hfence] using hps
    · exact List.forall_mem_cons.mpr ⟨trivial, hans⟩
  | case4 engine fenced number line rest _ _ e engine' hrender ih =>
    simp [Processed.keep, Processed.fail] at h
  | case5 engine fenced number line rest _ _ rendered engine' hrender _ ih =>
    simp [Processed.keep, Processed.fail] at h
  | case6 engine fenced number line rest hfence hlive rendered engine' hrender i hfind closing ih =>
    obtain ⟨hanswer, hsame⟩ := Engine.answer_of_render_eq hrender
    obtain ⟨hunfenced, hopens⟩ : fenced = false ∧ line.opensRegion = true := by simpa using hlive
    obtain ⟨old, closing, hrest, -, hclosing, hold⟩ := exists_append_of_findIdx?_closesRegion hfind
    obtain ⟨ps, hps, hans⟩ := ih (hsame.trans hengine) seen hfenced h
    refine ⟨.region line old closing :: ps, isDivision_cons.mpr ⟨rest.drop (i + 1), ?_, ?_, ?_⟩, ?_⟩
    · simp [Piece.lines, ← hrest]
    · exact ⟨hopens, hfenced.mp hunfenced, hclosing, hold⟩
    · simpa [Piece.isFence] using hps
    · exact List.forall_mem_cons.mpr ⟨⟨rendered, by rw [← hengine, hanswer]⟩, hans⟩

/-! ## Documents -/

theorem process_of_failures_eq_nil {engine : Engine} {text : Text}
    (h : (processLines store engine false 1 (Text.lines text)).failures = []) :
    (process store engine text).1 =
      .ok ((processLines store engine false 1 (Text.lines text)).text,
        (processLines store engine false 1 (Text.lines text)).changed) := by
  simp [process, h]

/-- What a document whose processing succeeds is written as, and from which pieces. -/
theorem process_eq_ok_iff {engine : Engine} {text written : Text} {changed : Bool} :
    (process store engine text).1 = .ok (written, changed) ↔
      ∃ ps, IsDivision 0 (Text.lines text) ps ∧ (∀ p ∈ ps, p.Answered (engine.answer store)) ∧
        written = ps.flatMap (Piece.renewed (engine.answer store)) ∧
        changed = ps.any Piece.isRegion := by
  have heven : (false = false) ↔ Even 0 := by simp
  constructor
  · intro h
    have hfail : (processLines store engine false 1 (Text.lines text)).failures = [] := by
      unfold process at h
      by_contra hne
      simp [hne] at h
    obtain ⟨ps, hps, hans⟩ := exists_isDivision_of_failures_eq_nil rfl 0 _ heven hfail
    obtain ⟨htext, hchanged, -⟩ := processLines_of_isDivision rfl hps hans heven 1
    rw [process_of_failures_eq_nil hfail] at h
    obtain ⟨rfl, rfl⟩ := Prod.mk.inj (Except.ok.inj h)
    exact ⟨ps, hps, hans, htext, hchanged⟩
  · rintro ⟨ps, hps, hans, rfl, rfl⟩
    obtain ⟨htext, hchanged, hfail⟩ := processLines_of_isDivision rfl hps hans heven 1
    rw [process_of_failures_eq_nil hfail, htext, hchanged]

theorem processInto_of_process_eq_ok {engine : Engine} {text written : Text} {changed : Bool}
    (h : (process store engine text).1 = .ok (written, changed)) (before : Text) :
    processInto store engine text before =
      (.ok changed, before ++ written, (process store engine text).2) := by
  unfold processInto
  revert h
  obtain ⟨result, engine'⟩ := process store engine text
  rintro rfl
  rfl

theorem exists_process_eq_ok {engine : Engine} {text before : Text} {changed : Bool}
    (h : (processInto store engine text before).1 = .ok changed) :
    ∃ written, (process store engine text).1 = .ok (written, changed) := by
  unfold processInto at h
  revert h
  obtain ⟨result, engine'⟩ := process store engine text
  cases result with
  | error failures => simp
  | ok p =>
    obtain ⟨written, changed'⟩ := p
    intro h
    exact ⟨written, by rw [Except.ok.inj h]⟩

/-- **Processing that succeeds touches nothing but the content of regions.** The document divides into
kept lines and regions in exactly one way. Each directive gets an answer, the one that the engine would
have given at the start, and behind the earlier output stand the kept lines as they were and the regions
with their answers. The document is reported as changed just where it has a region. -/
theorem processInto_writes_regions {engine : Engine} {text before : Text} {changed : Bool}
    (h : (processInto store engine text before).1 = .ok changed) :
    ∃ pieces, IsDivision 0 (Text.lines text) pieces ∧
      (∀ other, IsDivision 0 (Text.lines text) other → other = pieces) ∧
      pieces.flatMap Piece.written = text ∧
      (∀ p ∈ pieces, p.Answered (engine.answer store)) ∧
      (processInto store engine text before).2.1 =
        before ++ pieces.flatMap (Piece.renewed (engine.answer store)) ∧
      (changed = true ↔ ∃ p ∈ pieces, p.isRegion = true) ∧
      (changed = false → (processInto store engine text before).2.1 = before ++ text) := by
  obtain ⟨written, hprocess⟩ := exists_process_eq_ok h
  obtain ⟨pieces, hdiv, hans, hwritten, hchanged⟩ := process_eq_ok_iff.mp hprocess
  have houtput : (processInto store engine text before).2.1 = before ++ written := by
    rw [processInto_of_process_eq_ok hprocess]
  have hiff : changed = true ↔ ∃ p ∈ pieces, p.isRegion = true := by
    rw [hchanged, List.any_eq_true]
  refine ⟨pieces, hdiv, fun other hother => hother.unique hdiv, hdiv.flatMap_written, hans, ?_,
    hiff, ?_⟩
  · rw [houtput, hwritten]
  · intro hunchanged
    rw [houtput, hwritten, Piece.flatMap_renewed_of_forall_not_isRegion, hdiv.flatMap_written]
    intro p hp hregion
    rw [hiff.mpr ⟨p, hp, hregion⟩] at hunchanged
    exact Bool.noConfusion hunchanged

/-- A store whose only file declares one type. -/
def oneTypeStore : Store := (MemoryStore.ofList [("R.cs".toList, "class R;".toList)]).toStore

/-- A document whose only region asks for the type. -/
def asksForType : Text := "<!-- begin-snippet: R.cs R -->\n<!-- end-snippet -->\n".toList

/-- A document with a directive shown in a code block and a region behind it, whose end marker is
indented and not terminated. -/
def shownAndLive : Text :=
  ["```\n", "<!-- begin-snippet: R.cs R -->\n", "```\n", "<!-- begin-snippet: R.cs R -->\r\n", "old\n",
    " <!-- END-snippet -->"].flatMap String.toList

/-- The document has a region, and what is written for it holds the type. -/
theorem processInto_shownAndLive :
    (processInto oneTypeStore Engine.fresh shownAndLive []).1 = .ok true ∧
      ∃ pieces, IsDivision 0 (Text.lines shownAndLive) pieces ∧
        (∃ p ∈ pieces, p.isRegion = true) ∧
        (processInto oneTypeStore Engine.fresh shownAndLive []).2.1 =
          pieces.flatMap (Piece.renewed (Engine.fresh.answer oneTypeStore)) := by
  have h : (processInto oneTypeStore Engine.fresh shownAndLive []).1 = .ok true := by
    decide +kernel
  obtain ⟨pieces, hdiv, -, -, -, houtput, hchanged, -⟩ := processInto_writes_regions h
  exact ⟨h, pieces, hdiv, hchanged.mp rfl, houtput⟩

end Document

end Excerpt
