import Excerpt.Proofs.Document.Regions
import Excerpt.Proofs.Engine.Answer

/-!
# Excerpt — a renewed document is renewed to itself

What processing writes divides as the document did that was processed: the same lines are kept, the same
lines open regions behind the same fences, and each region is closed by the end marker that was written
for it, unless a line of what it holds now closes it before. Where none does, the regions hold what their
directives ask for already, and processing the text again gives it back.

* **`Piece.refreshed`** — a piece as it stands in the document that was written.
* **`isLines_flatMap_refreshed`**, **`isDivision_refreshed`** — these pieces are made of lines that are
  read again as they are, and they are how these lines divide.
* **`processInto_idempotent`** — processing what processing wrote writes it again.
-/

namespace Excerpt

/-! ## Pieces of the document that was written -/

variable {answer : Text → Except Error Text}

/-- No line of an answer to a directive of the text closes a region. -/
def RendersNoEndMarker (answer : Text → Except Error Text) (text : Text) : Prop :=
  ∀ pieces, IsDivision 0 (Text.lines text) pieces →
    ∀ opening old closing rendered, Piece.region opening old closing ∈ pieces →
      answer opening.trimmed = .ok rendered → ∀ l ∈ Text.lines rendered, ¬ l.closesRegion

namespace Piece

/-- The piece as it stands in the document that was written: a region holds the lines of the answer to
its directive, and is closed by the end marker itself. -/
def refreshed (answer : Text → Except Error Text) : Piece → Piece
  | kept line => kept line
  | region opening _ closing =>
    let rendered := (answer opening.trimmed).toOption.getD []
    region opening (Text.lines (Text.withTerminator opening.terminator rendered))
      ⟨Directive.endMarker, closing.terminator⟩

theorem refreshed_region {opening closing : Line} {old : List Line} {rendered : Text}
    (h : answer opening.trimmed = .ok rendered) :
    (region opening old closing).refreshed answer =
      region opening (Text.lines (Text.withTerminator opening.terminator rendered))
        ⟨Directive.endMarker, closing.terminator⟩ := by
  simp [refreshed, h, Except.toOption]

@[simp] theorem isFence_refreshed (p : Piece) : (p.refreshed answer).isFence = p.isFence := by
  cases p <;> rfl

@[simp] theorem isRegion_refreshed (p : Piece) : (p.refreshed answer).isRegion = p.isRegion := by
  cases p <;> rfl

theorem written_refreshed {p : Piece} (h : p.Answered answer) :
    (p.refreshed answer).written = p.renewed answer := by
  cases p with
  | kept line => exact List.append_nil line.written
  | region opening old closing =>
    obtain ⟨rendered, hrendered⟩ := h
    rw [refreshed_region hrendered, renewed_region hrendered]
    unfold written lines
    rw [List.flatMap_cons, List.flatMap_append, Text.flatMap_written_lines, List.flatMap_singleton]
    simp [Line.written]

/-- A refreshed piece asks for what the piece asks for, whoever answers, and is written as the piece is. -/
theorem renewed_refreshed (other : Text → Except Error Text) (p : Piece) :
    (p.refreshed answer).renewed other = p.renewed other := by
  cases p <;> rfl

theorem answered_refreshed {other : Text → Except Error Text} {p : Piece} (h : p.Answered other) :
    (p.refreshed answer).Answered other := by
  cases p with
  | kept line => exact trivial
  | region opening old closing => exact h

end Piece

/-! ## The lines that were written -/

/-- A line can be rewritten where it keeps its terminator, and what follows it as well. -/
theorem IsLines.replace {l l' : Line} {rest rest' : List Line} (h : IsLines (l :: rest))
    (hl : l'.IsProper) (hne : l.text ≠ [] → l'.text ≠ []) (hterm : l'.terminator = l.terminator)
    (hrest : IsLines rest') (hnil : rest = [] → rest' = []) : IsLines (l' :: rest') := by
  cases h with
  | last _ _ hnone htext =>
    rw [hnil rfl]
    exact .last l' hl (hterm.trans hnone) (hne htext)
  | cons _ _ _ hend _ => exact .cons l' rest' hl (fun hnone => hend (hterm.symm.trans hnone)) hrest

theorem endMarker_ne_nil : Directive.endMarker ≠ [] := by decide

theorem isProper_endMarker (t : Terminator) : Line.IsProper ⟨Directive.endMarker, t⟩ := by
  have hfree : '\n' ∉ Directive.endMarker := by decide
  have hlast : Directive.endMarker.getLast? ≠ some '\r' := by decide
  exact ⟨hfree, fun _ => hlast⟩

theorem closesRegion_endMarker (t : Terminator) : Line.closesRegion ⟨Directive.endMarker, t⟩ := by
  have h : Directive.isEndMarker (Text.trim Directive.endMarker) = true := by decide
  exact h

theorem forall_isProper_isEnded_of_getLast? {t : Terminator} (ht : t ≠ .none) {rendered : Text}
    (h : rendered.getLast? = some '\n') :
    ∀ l ∈ Text.lines (Text.withTerminator t rendered), l.IsProper ∧ l.IsEnded := by
  intro l hl
  have hlast := Text.getLast?_withTerminator ht h
  exact ⟨(Text.isLines_lines _).isProper hl, Text.isEnded_of_mem_lines hlast hl⟩

/-- How the line feeds of an answer are written does not matter to whether a line of it closes a region. -/
theorem forall_not_closesRegion_withTerminator_iff {t : Terminator} (ht : t ≠ .none) {rendered : Text} :
    (∀ l ∈ Text.lines (Text.withTerminator t rendered), ¬ l.closesRegion) ↔
      ∀ l ∈ Text.lines rendered, ¬ l.closesRegion := by
  have hmap : ∀ ls : List Line, (∀ l ∈ ls, ¬ l.closesRegion) ↔
      ∀ s ∈ ls.map Line.trimmed, ¬ Directive.isEndMarker s := by
    intro ls
    rw [List.forall_mem_map]
    rfl
  rw [hmap, hmap, Text.map_trimmed_lines_withTerminator ht]

/-- The line that opens the first region of some lines is terminated: another line closes it. -/
theorem isEnded_opening {opening closing : Line} {old rest : List Line}
    (h : IsLines ((Piece.region opening old closing).lines ++ rest)) : opening.IsEnded :=
  IsLines.isEnded_of_cons h (by simp)

/-- The line that opens a region of a text is terminated. -/
theorem IsDivision.isEnded_opening {text : Text} {pieces : List Piece} (h : IsDivision 0 (Text.lines text) pieces)
    {opening closing : Line} {old : List Line} (hmem : Piece.region opening old closing ∈ pieces) :
    opening.IsEnded := by
  obtain ⟨before, behind, rfl⟩ := List.append_of_mem hmem
  have hlines := Text.isLines_lines text
  rw [← h.covers, List.flatMap_append, List.flatMap_cons] at hlines
  exact Excerpt.isEnded_opening hlines.of_append

/-- **The lines of the refreshed pieces are read again as they are.** Induction on the pieces: a region
keeps the terminator of its last line, and all lines before that one are terminated. -/
theorem isLines_flatMap_refreshed {ps : List Piece} (h : IsLines (ps.flatMap Piece.lines))
    (hans : ∀ p ∈ ps, p.Answered answer)
    (hlast : ∀ line rendered, answer line = .ok rendered → rendered.getLast? = some '\n') :
    IsLines ((ps.map (Piece.refreshed answer)).flatMap Piece.lines) := by
  induction ps with
  | nil => exact .nil
  | cons p ps ih =>
    rw [List.flatMap_cons] at h
    rw [List.map_cons, List.flatMap_cons]
    have hrest := ih h.of_append fun q hq => hans q (List.mem_cons_of_mem p hq)
    have hnil : ps.flatMap Piece.lines = [] →
        (ps.map (Piece.refreshed answer)).flatMap Piece.lines = [] := by
      intro hnone
      cases ps with
      | nil => rfl
      | cons q qs => exact absurd (List.append_eq_nil_iff.mp hnone).1 q.lines_ne_nil
    cases p with
    | kept line => exact h.replace (h.isProper List.mem_cons_self) id rfl hrest hnil
    | region opening old closing =>
      obtain ⟨rendered, hrendered⟩ := hans _ List.mem_cons_self
      have hended := isEnded_opening h
      have hclosing : IsLines (closing :: ps.flatMap Piece.lines) := by
        refine IsLines.of_append (a := opening :: old) ?_
        simpa [Piece.lines] using h
      -- the closing line can be the last one, and then the end marker is not terminated either
      have hmarker := hclosing.replace (isProper_endMarker closing.terminator)
        (fun _ => endMarker_ne_nil) rfl hrest hnil
      have hheld := forall_isProper_isEnded_of_getLast? hended (hlast _ _ hrendered)
      rw [Piece.refreshed_region hrendered]
      refine .cons opening _ (h.isProper List.mem_cons_self) hended ?_
      simpa using IsLines.append hheld hmarker

/-- **The refreshed pieces are how their lines divide**, where no line of an answer closes a region.
Induction on the pieces: a refreshed piece counts as a fence just where the piece did. -/
theorem isDivision_refreshed {seen : Nat} {lines : List Line} {ps : List Piece}
    (h : IsDivision seen lines ps) (hlines : IsLines lines) (hans : ∀ p ∈ ps, p.Answered answer)
    (hopen : ∀ opening old closing rendered, Piece.region opening old closing ∈ ps →
      answer opening.trimmed = .ok rendered → ∀ l ∈ Text.lines rendered, ¬ l.closesRegion) :
    IsDivision seen ((ps.map (Piece.refreshed answer)).flatMap Piece.lines)
      (ps.map (Piece.refreshed answer)) := by
  induction ps generalizing seen lines with
  | nil => exact isDivision_nil.mpr rfl
  | cons p ps ih =>
    obtain ⟨rest, rfl, hstands, hrest⟩ := isDivision_cons.mp h
    have hdiv := ih hrest hlines.of_append (fun q hq => hans q (List.mem_cons_of_mem p hq))
      fun opening old closing rendered hmem =>
        hopen opening old closing rendered (List.mem_cons_of_mem p hmem)
    rw [List.map_cons]
    refine isDivision_cons.mpr ⟨_, List.flatMap_cons, ?_, ?_⟩
    · cases p with
      | kept line => exact hstands
      | region opening old closing =>
        obtain ⟨rendered, hrendered⟩ := hans _ List.mem_cons_self
        have hheld := hopen opening old closing rendered List.mem_cons_self hrendered
        have hended := isEnded_opening hlines
        rw [Piece.refreshed_region hrendered]
        exact ⟨hstands.1, hstands.2.1, closesRegion_endMarker _,
          (forall_not_closesRegion_withTerminator_iff hended).mpr hheld⟩
    · rwa [Piece.isFence_refreshed]

theorem flatMap_written_refreshed {ps : List Piece} (hans : ∀ p ∈ ps, p.Answered answer) :
    ((ps.map (Piece.refreshed answer)).flatMap Piece.lines).flatMap Line.written =
      ps.flatMap (Piece.renewed answer) := by
  have hsame : ∀ p ∈ ps, ((p.refreshed answer).lines).flatMap Line.written = p.renewed answer :=
    fun p hp => Piece.written_refreshed (hans p hp)
  rw [List.flatMap_assoc, List.flatMap_map, List.flatMap_def, List.map_congr_left hsame]
  rfl

theorem flatMap_renewed_refreshed (other : Text → Except Error Text) (ps : List Piece) :
    (ps.map (Piece.refreshed answer)).flatMap (Piece.renewed other) = ps.flatMap (Piece.renewed other) := by
  rw [List.flatMap_map]
  exact congrArg (List.flatMap · ps) (funext fun p => Piece.renewed_refreshed other p)

namespace Document

variable {store : Store}

/-- **The lines that processing writes** are those of the refreshed pieces. -/
theorem lines_of_process_eq_ok {engine : Engine} {text written : Text} {changed : Bool} {pieces : List Piece}
    (h : (process store engine text).1 = .ok (written, changed)) (hdiv : IsDivision 0 (Text.lines text) pieces) :
    (∀ p ∈ pieces, p.Answered (engine.answer store)) ∧
      Text.lines written = (pieces.map (Piece.refreshed (engine.answer store))).flatMap Piece.lines := by
  obtain ⟨pieces', hdiv', hans, hwritten, -⟩ := process_eq_ok_iff.mp h
  obtain rfl := hdiv'.unique hdiv
  have hlines : IsLines (pieces'.flatMap Piece.lines) := by
    rw [hdiv.covers]
    exact Text.isLines_lines text
  have hread := isLines_flatMap_refreshed hlines hans fun _ _ => Engine.getLast?_of_answer_eq_ok
  refine ⟨hans, ?_⟩
  rw [hwritten, ← flatMap_written_refreshed hans, Text.lines_flatMap_written hread]

/-- **What was written is renewed as the document was that it was written for,** by any engine and over any store:
the refreshed pieces are the pieces of the document that was written, and they ask for what the pieces ask for. -/
theorem process_written {store' : Store} {engine engine' : Engine} {text written : Text} {changed : Bool}
    {result : Text × Bool} (h : (process store engine text).1 = .ok (written, changed))
    (hopen : RendersNoEndMarker (engine.answer store) text) (hagain : (process store' engine' text).1 = .ok result) :
    (process store' engine' written).1 = .ok result := by
  obtain ⟨written', changed'⟩ := result
  obtain ⟨pieces, hdiv, hans', hwritten', hchanged'⟩ := process_eq_ok_iff.mp hagain
  obtain ⟨hans, hread⟩ := lines_of_process_eq_ok h hdiv
  refine process_eq_ok_iff.mpr ⟨pieces.map (Piece.refreshed (engine.answer store)), ?_, ?_, ?_, ?_⟩
  · rw [hread]
    exact isDivision_refreshed hdiv (Text.isLines_lines text) hans (hopen pieces hdiv)
  · intro q hq
    obtain ⟨p, hp, rfl⟩ := List.mem_map.mp hq
    exact Piece.answered_refreshed (hans' p hp)
  · rw [flatMap_renewed_refreshed, hwritten']
  · rw [List.any_map, hchanged']
    exact congrArg (List.any pieces) (funext fun p => (Piece.isRegion_refreshed p).symm)

theorem sync_of_process_eq_ok {engine : Engine} {text written : Text} {changed : Bool}
    (h : (process store engine text).1 = .ok (written, changed)) :
    sync store engine text =
      (if ! changed then .noExcerpts else if written = text then .noChanges else .updated written,
        (process store engine text).2) := by
  unfold sync
  rw [processInto_of_process_eq_ok h]
  rfl

/-- **Processing what processing wrote writes it again.** Whatever the engine has read before, a text
that processing writes without a failure is left as it is by the engine behind it, unless a line of an
answer closes a region; a document that was brought up to date has no changes then. -/
theorem processInto_idempotent {engine : Engine} {text before : Text} {changed : Bool}
    (h : (processInto store engine text before).1 = .ok changed)
    (hopen : RendersNoEndMarker (engine.answer store) text) :
    ∃ written, (processInto store engine text before).2.1 = before ++ written ∧
      (∀ before', ∃ engine',
        processInto store (processInto store engine text before).2.2 written before' =
          (.ok changed, before' ++ written, engine')) ∧
      ∀ content, (sync store engine text).1 = .updated content →
        content = written ∧ (sync store (sync store engine text).2 content).1 = .noChanges := by
  obtain ⟨written, hprocess⟩ := exists_process_eq_ok h
  have hsame : (process store engine text).2.answer store = engine.answer store :=
    Engine.answer_eq_of_view_eq (view_process store engine text)
  have hrepeat : (process store (process store engine text).2 text).1 = .ok (written, changed) := by
    rw [process_eq_ok_iff, hsame]
    exact process_eq_ok_iff.mp hprocess
  have hagain := process_written hprocess hopen hrepeat
  rw [processInto_of_process_eq_ok hprocess, sync_of_process_eq_ok hprocess]
  refine ⟨written, rfl, fun before' => ⟨_, processInto_of_process_eq_ok hagain before'⟩, ?_⟩
  intro content hupdated
  have hchanged : changed = true := by
    cases changed with
    | true => rfl
    | false => exact absurd hupdated (by simp)
  obtain rfl : content = written := by
    simp only [hchanged, Bool.not_true, Bool.false_eq_true, if_false] at hupdated
    split at hupdated
    · exact absurd hupdated (by simp)
    · exact (Status.updated.inj hupdated).symm
  refine ⟨rfl, ?_⟩
  rw [sync_of_process_eq_ok hagain, hchanged]
  simp

/-- The lines of a text that some line of an answer could close are those that get one. -/
theorem rendersNoEndMarker_of_forall_mem_lines {answer : Text → Except Error Text} {text : Text}
    (h : ∀ line ∈ Text.lines text, ∀ rendered, answer line.trimmed = .ok rendered →
      ∀ l ∈ Text.lines rendered, ¬ l.closesRegion) : RendersNoEndMarker answer text := by
  intro pieces hdiv opening old closing rendered hmem
  refine h opening ?_ rendered
  rw [← hdiv.covers]
  exact List.mem_flatMap.mpr ⟨_, hmem, List.mem_cons_self⟩

/-- A region behind a directive shown in a code block, with terminators of both kinds, is written once. -/
theorem processInto_idempotent_shownAndLive :
    (processInto oneTypeStore Engine.fresh shownAndLive []).1 = .ok true ∧
      RendersNoEndMarker (Engine.fresh.answer oneTypeStore) shownAndLive ∧
      ∃ written, (processInto oneTypeStore Engine.fresh shownAndLive []).2.1 = written ∧
        written ≠ shownAndLive ∧
        (processInto oneTypeStore (processInto oneTypeStore Engine.fresh shownAndLive []).2.2
          written []).2.1 = written := by
  have h : (processInto oneTypeStore Engine.fresh shownAndLive []).1 = .ok true := by
    decide +kernel
  have hopen : RendersNoEndMarker (Engine.fresh.answer oneTypeStore) shownAndLive := by
    refine rendersNoEndMarker_of_forall_mem_lines ?_
    intro line hline rendered hrendered l hl
    have hall : ∀ line ∈ Text.lines shownAndLive,
        ∀ l ∈ Text.lines ((Engine.fresh.answer oneTypeStore line.trimmed).toOption.getD []),
          ¬ l.closesRegion := by
      decide +kernel
    refine hall line hline l ?_
    rw [hrendered]
    exact hl
  obtain ⟨written, hwritten, hagain, -⟩ := processInto_idempotent h hopen
  obtain ⟨engine', hsecond⟩ := hagain []
  refine ⟨h, hopen, written, hwritten, ?_, by rw [hsecond]; rfl⟩
  have hne : (processInto oneTypeStore Engine.fresh shownAndLive []).2.1 ≠ shownAndLive := by
    decide +kernel
  rwa [hwritten] at hne

/-- A document whose directive gives its code block a language that goes on with an end marker. -/
def endMarkerInLanguage : Text :=
  ["<!-- begin-snippet: R.cs R ", "(formatter:code-block?", "lang=%0A%3C!--+", "end-snippet+--%3E)", " -->\n",
    "<!-- end-snippet -->\n"].flatMap String.toList

/-- It does not suffice that no line of the fragment closes a region: here the fragment is one line of
code, but the language of the code block has a line that does, and what is written grows each time. -/
theorem processInto_endMarkerInLanguage :
    (∃ fragment, (SourceExtractor.fresh.extract oneTypeStore "R.cs".toList "R".toList
        Options.empty).1 = .ok fragment ∧
      ∀ l ∈ Text.lines fragment.content, ¬ l.closesRegion) ∧
      (processInto oneTypeStore Engine.fresh endMarkerInLanguage []).1 = .ok true ∧
      (processInto oneTypeStore
          (processInto oneTypeStore Engine.fresh endMarkerInLanguage []).2.2
          (processInto oneTypeStore Engine.fresh endMarkerInLanguage []).2.1 []).2.1 ≠
        (processInto oneTypeStore Engine.fresh endMarkerInLanguage []).2.1 := by
  refine ⟨⟨⟨"R.cs".toList, "R".toList, some ⟨0, 0⟩, "class R;".toList, "cs".toList⟩, ?_, ?_⟩, ?_, ?_⟩
  · decide +kernel
  · decide
  · decide +kernel
  · decide +kernel

end Document

end Excerpt
