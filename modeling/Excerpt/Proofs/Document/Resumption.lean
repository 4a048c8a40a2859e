import Excerpt.Proofs.Document.Failures
import Excerpt.Proofs.Source.Locate

/-!
# Excerpt — the scan behind a region that fails

Where the directive of a region gets no answer, the scan goes on with the stale lines of the region, and where it gets
one, behind them. In both cases it comes to the line that closes the region and goes on with the line behind it; but in
the first case the fences among the stale lines count. With an odd number of them, what stands behind the region is
read as if it stood in a code block, and the code blocks behind it as if they stood outside of one.

* **`IsLive`** — the scan comes to a line outside of code blocks.
* **`IsScan.append`** — two scans one behind the other, the first of which ends with a line that closes a region.
* **`IsScan.replaceBehind`** — what stands behind the lines that are scanned can be exchanged.
* **`Document.failures_behind`** — the failures behind some lines are those which the lines behind them have.
* **`Document.failures_behind_region`** — the failures behind a region that fails, and behind one that does not.
-/

namespace Excerpt

variable {answer : Text → Except Error Text}

/-- The scan of the lines comes to this line outside of code blocks, and it opens a region. -/
def IsLive (answer : Text → Except Error Text) (front : List Line) (line : Line) (behind : List Line) : Prop :=
  line.opensRegion ∧ ∃ before pieces, before.flatMap Piece.lines = front ∧ Even (fences before) ∧
    IsScan answer 0 (front ++ line :: behind) (before ++ pieces)

/-- A line that closes a region opens none. -/
theorem Line.not_opensRegion_of_closesRegion {line : Line} (h : line.closesRegion) : ¬ line.opensRegion := by
  intro hopens
  obtain ⟨front, rest, hline, hfront⟩ := (SourceFile.dropPrefixIgnoreCase?_isSome_iff _ _).mp hopens
  have hend : Text.lower line.trimmed = Text.lower Directive.endMarker := by
    simpa [Line.closesRegion, Directive.isEndMarker, Text.eqIgnoreCase] using h
  have hprefix : Text.lower Directive.beginMarker <+: Text.lower Directive.endMarker := by
    rw [← hend, ← hfront, hline, Text.lower, Text.lower, List.map_append]
    exact List.prefix_append _ _
  exact absurd hprefix (by decide)

/-! ## Scans one behind the other -/

/-- A scan depends on whether the number of fences before it is even. -/
theorem IsScan.congr {seen seen' : Nat} {lines : List Line} {pieces : List Piece} (heven : Even seen ↔ Even seen')
    (h : IsScan answer seen lines pieces) : IsScan answer seen' lines pieces := by
  refine ⟨h.covers, fun before p behind hpieces => ?_⟩
  have hpasses := h.passes before p behind hpieces
  have hsame : Even (seen + fences before) ↔ Even (seen' + fences before) := by rw [Nat.even_add, Nat.even_add, heven]
  cases p with
  | kept line => exact fun hopens hhere => hpasses hopens (hsame.mpr hhere)
  | region opening old closing =>
    obtain ⟨⟨hopens, hhere, hclosing, hold⟩, hanswered⟩ := hpasses
    exact ⟨⟨hopens, hsame.mp hhere, hclosing, hold⟩, hanswered⟩

/-- Lines that open no region are kept. -/
theorem isScan_map_kept {lines : List Line} (h : ∀ l ∈ lines, ¬ l.opensRegion) (seen : Nat) :
    IsScan answer seen lines (lines.map .kept) := by
  induction lines generalizing seen with
  | nil => exact isScan_nil.mpr rfl
  | cons line rest ih =>
    obtain ⟨hline, hrest⟩ := List.forall_mem_cons.mp h
    exact isScan_cons.mpr ⟨rest, rfl, fun hopens => absurd hopens hline, ih hrest _⟩

theorem fences_map_kept (lines : List Line) : fences (lines.map .kept) = lines.countP Line.isFence :=
  List.countP_map

/-- A line that fails goes on to fail where none of the lines behind it closes a region then either. -/
theorem Piece.Passes.replaceBehind {seen : Nat} {behind behind' : List Line} {p : Piece}
    (h : p.Passes answer seen behind)
    (hopen : (∀ l ∈ behind, ¬ l.closesRegion) → ∀ l ∈ behind', ¬ l.closesRegion) : p.Passes answer seen behind' := by
  cases p with
  | kept line => exact fun hopens heven => (h hopens heven).imp_right hopen
  | region opening old closing => exact h

/-- **What stands behind the lines that are scanned can be exchanged**, where a region can be closed there as
before. Induction on the pieces. -/
theorem IsScan.replaceBehind {seen : Nat} {before pieces pieces' : List Piece} {rest rest' : List Line}
    (h : IsScan answer seen (before.flatMap Piece.lines ++ rest) (before ++ pieces))
    (hrest' : IsScan answer (seen + fences before) rest' pieces')
    (hopen : (∀ l ∈ rest, ¬ l.closesRegion) → ∀ l ∈ rest', ¬ l.closesRegion) :
    IsScan answer seen (before.flatMap Piece.lines ++ rest') (before ++ pieces') := by
  induction before generalizing seen with
  | nil => exact hrest'
  | cons p before ih =>
    rw [List.flatMap_cons, List.append_assoc] at h
    obtain ⟨behind, hlines, hpasses, hbehind⟩ := isScan_cons.mp h
    obtain rfl := List.append_cancel_left hlines
    rw [fences_cons, ← Nat.add_assoc] at hrest'
    refine isScan_cons.mpr ⟨before.flatMap Piece.lines ++ rest', ?_, hpasses.replaceBehind ?_, ih hbehind hrest'⟩
    · rw [List.flatMap_cons, List.append_assoc]
    · intro hnone
      rw [List.forall_mem_append] at hnone ⊢
      exact ⟨hnone.1, hopen hnone.2⟩

/-- The later pieces are how the scan passes the lines behind the first pieces. -/
theorem IsScan.of_append {seen : Nat} {ps qs : List Piece} {rest : List Line}
    (h : IsScan answer seen (ps.flatMap Piece.lines ++ rest) (ps ++ qs)) : IsScan answer (seen + fences ps) rest qs := by
  induction ps generalizing seen with
  | nil => exact h
  | cons p ps ih =>
    rw [List.flatMap_cons, List.append_assoc] at h
    obtain ⟨behind, hlines, -, hbehind⟩ := isScan_cons.mp h
    obtain rfl := List.append_cancel_left hlines
    rw [fences_cons, ← Nat.add_assoc]
    exact ih hbehind

/-- Where the last line closes a region, each piece is passed in the same way with more lines behind. -/
theorem Piece.Passes.append {seen : Nat} {behind : List Line} {p : Piece} (h : p.Passes answer seen behind)
    (hends : ∀ l ∈ (p.lines ++ behind).getLast?, l.closesRegion) (rest : List Line) :
    p.Passes answer seen (behind ++ rest) := by
  cases p with
  | region opening old closing => exact h
  | kept line =>
    intro hopens heven
    refine (h hopens heven).imp_right fun hopen => ?_
    cases behind with
    | nil => exact absurd hopens (Line.not_opensRegion_of_closesRegion (hends line rfl))
    | cons l behind =>
      -- the last line is one of the lines behind
      have hne := List.cons_ne_nil l behind
      refine absurd (hends ((l :: behind).getLast hne) ?_) (hopen _ (List.getLast_mem hne))
      rw [show (Piece.kept line).lines ++ l :: behind = line :: l :: behind from rfl, List.getLast?_cons_cons,
        List.getLast?_eq_some_getLast hne]
      rfl

/-- **Two scans one behind the other**, the first of which ends with a line that closes a region. Induction on its
pieces. -/
theorem IsScan.append {seen : Nat} {lines rest : List Line} {ps qs : List Piece} (h : IsScan answer seen lines ps)
    (hends : ∀ l ∈ lines.getLast?, l.closesRegion) (hrest : IsScan answer (seen + fences ps) rest qs) :
    IsScan answer seen (lines ++ rest) (ps ++ qs) := by
  induction ps generalizing seen lines with
  | nil =>
    obtain rfl := isScan_nil.mp h
    exact hrest
  | cons p ps ih =>
    obtain ⟨behind, rfl, hpasses, hbehind⟩ := isScan_cons.mp h
    rw [fences_cons, ← Nat.add_assoc] at hrest
    refine isScan_cons.mpr ⟨behind ++ rest, List.append_assoc .., hpasses.append hends rest, ih hbehind ?_ hrest⟩
    intro l hl
    apply hends
    rw [List.getLast?_append, hl]
    rfl

/-! ## Failures behind a scan -/

/-- The failures from the first line of the later pieces on are those that the later pieces have. -/
theorem isFailure_append {seen number : Nat} {ps qs : List Piece} {f : LineFailure}
    (h : number + (ps.flatMap Piece.lines).length ≤ f.line) :
    IsFailure answer seen number (ps ++ qs) f ↔
      IsFailure answer (seen + fences ps) (number + (ps.flatMap Piece.lines).length) qs f := by
  induction ps generalizing seen number with
  | nil => rfl
  | cons p ps ih =>
    rw [List.flatMap_cons, List.length_append, ← Nat.add_assoc] at h ⊢
    rw [List.cons_append, isFailure_cons, ih h, fences_cons, Nat.add_assoc]
    refine or_iff_right ?_
    -- the first piece stands before the later ones
    rintro ⟨line, rfl, -, -, -, rfl⟩
    have hlength : (Piece.kept line).lines.length = 1 := rfl
    dsimp only at h
    omega

namespace Collects

variable {seen number : Nat} {lines : List Line} {failures failures' : List LineFailure}

/-- The failures of the lines are told by the lines. -/
theorem unique (h : Collects answer seen number lines failures) (h' : Collects answer seen number lines failures') :
    failures = failures' := by
  obtain ⟨ps, hscan, hsorted, hmem⟩ := h
  obtain ⟨qs, hscan', hsorted', hmem'⟩ := h'
  obtain rfl := hscan.unique hscan'
  have hnodup : ∀ {fs : List LineFailure}, fs.Pairwise (·.line < ·.line) → fs.Nodup :=
    fun hfs => hfs.imp fun hlt => ne_of_apply_ne LineFailure.line (Nat.ne_of_lt hlt)
  refine List.Perm.eq_of_pairwise (fun f g _ _ hlt hgt => absurd hgt (Nat.lt_asymm hlt)) hsorted hsorted' ?_
  rw [List.perm_ext_iff_of_nodup (hnodup hsorted) (hnodup hsorted')]
  exact fun f => (hmem f).trans (hmem' f).symm

/-- Of the failures of lines those behind the first pieces are the failures of the lines behind these. -/
theorem filter {ps qs : List Piece} {rest : List Line}
    (h : Collects answer seen number (ps.flatMap Piece.lines ++ rest) failures)
    (hscan : IsScan answer seen (ps.flatMap Piece.lines ++ rest) (ps ++ qs)) :
    Collects answer (seen + fences ps) (number + (ps.flatMap Piece.lines).length) rest
      (failures.filter (number + (ps.flatMap Piece.lines).length ≤ ·.line)) := by
  obtain ⟨ps', hscan', hsorted, hmem⟩ := h
  obtain rfl := hscan'.unique hscan
  refine ⟨qs, hscan.of_append, hsorted.filter _, fun f => ?_⟩
  rw [List.mem_filter, hmem, decide_eq_true_iff]
  constructor
  · rintro ⟨hf, hline⟩
    exact (isFailure_append hline).mp hf
  · intro hf
    exact ⟨(isFailure_append hf.le_line).mpr hf, hf.le_line⟩

end Collects

namespace Document

variable {store : Store} {engine : Engine}

/-- The failures that are reported for a document, none where it is written. -/
def failures (store : Store) (engine : Engine) (text : Text) : List LineFailure :=
  match (process store engine text).1 with
  | .ok _ => []
  | .error failures => failures

theorem failures_eq (store : Store) (engine : Engine) (text : Text) :
    failures store engine text = (processLines store engine false 1 (Text.lines text)).failures := by
  unfold failures process
  dsimp only
  cases (processLines store engine false 1 (Text.lines text)).failures <;> rfl

/-- **The failures behind some lines are those which the lines behind them have,** where the scan passes the first
lines by themselves. -/
theorem failures_behind {text : Text} {front rest : List Line} (ps : List Piece) {qs : List Piece} {number : Nat}
    (htext : Text.lines text = front ++ rest) (hfront : ps.flatMap Piece.lines = front) (hnumber : front.length = number)
    (hscan : IsScan (engine.answer store) 0 (front ++ rest) (ps ++ qs)) {fenced : Bool}
    (hfenced : fenced = false ↔ Even (fences ps)) :
    (failures store engine text).filter (number < ·.line) =
      (processLines store engine fenced (number + 1) rest).failures := by
  subst hfront hnumber
  have heven : (false = false) ↔ Even 0 := by simp
  have hall : Collects (engine.answer store) 0 1 (Text.lines text) _ := processLines_failures rfl heven 1 _
  rw [← failures_eq, htext] at hall
  have hbehind := hall.filter hscan
  rw [Nat.add_comm 1, Nat.zero_add] at hbehind
  exact hbehind.unique (processLines_failures rfl hfenced _ _)

theorem exists_isScan (store : Store) (engine : Engine) (seen : Nat) (lines : List Line) :
    ∃ pieces, IsScan (engine.answer store) seen lines pieces := by
  have hfenced : (! decide (Even seen)) = false ↔ Even seen := by simp
  have hall : Collects (engine.answer store) seen 1 lines _ := processLines_failures rfl hfenced 1 _
  obtain ⟨pieces, hscan, -⟩ := hall
  exact ⟨pieces, hscan⟩

section Region

variable {front stale rest : List Line} {opening closing : Line} {text : Text}

/-- The scan goes on behind a region that gets an answer as it came to it. -/
theorem failures_behind_answered {old : Line} {rendered : Text}
    (htext : Text.lines text = front ++ opening :: (stale ++ closing :: rest))
    (hlive : IsLive (engine.answer store) front old (stale ++ closing :: rest)) (hopens : opening.opensRegion)
    (hstale : ∀ l ∈ stale, ¬ l.closesRegion) (hclosing : closing.closesRegion)
    (hanswer : engine.answer store opening.trimmed = .ok rendered) :
    (failures store engine text).filter (front.length + stale.length + 2 < ·.line) =
      (processLines store engine false (front.length + stale.length + 3) rest).failures := by
  obtain ⟨-, before, pieces, rfl, heven, hscan⟩ := hlive
  obtain ⟨qs, hqs⟩ := exists_isScan store engine (fences before) rest
  have hregion : IsScan (engine.answer store) (fences before) (opening :: (stale ++ closing :: rest))
      (.region opening stale closing :: qs) :=
    isScan_cons.mpr ⟨rest, by simp [Piece.lines], ⟨⟨hopens, heven, hclosing, hstale⟩, rendered, hanswer⟩, hqs⟩
  rw [← Nat.zero_add (fences before)] at hregion
  have hwhole := hscan.replaceBehind hregion fun hopen => absurd hclosing (hopen closing (by simp))
  have hscanned : IsScan (engine.answer store) 0
      ((before.flatMap Piece.lines ++ opening :: (stale ++ [closing])) ++ rest)
      ((before ++ [.region opening stale closing]) ++ qs) := by
    simpa using hwhole
  have hfences : fences (before ++ [.region opening stale closing]) = fences before := fences_append ..
  refine failures_behind _ ?_ ?_ ?_ hscanned ?_
  · rw [htext]
    simp
  · simp [Piece.lines]
  · simp
    omega
  · simpa [hfences] using heven

/-- Behind a line that gets no answer the stale lines are scanned, and their fences count. -/
theorem failures_behind_failed {pieces : List Piece} {e : Error}
    (htext : Text.lines text = front ++ opening :: (stale ++ closing :: rest))
    (hlive : IsLive (engine.answer store) front opening (stale ++ closing :: rest)) (hclosing : closing.closesRegion)
    (hanswer : engine.answer store opening.trimmed = .error e)
    (hpieces : IsScan (engine.answer store) 0 (stale ++ [closing]) pieces) {fenced : Bool}
    (hfenced : fenced = false ↔ Even (fences pieces)) :
    (failures store engine text).filter (front.length + stale.length + 2 < ·.line) =
      (processLines store engine fenced (front.length + stale.length + 3) rest).failures := by
  obtain ⟨hopens, before, old, rfl, heven, hscan⟩ := hlive
  obtain ⟨qs, hqs⟩ := exists_isScan store engine (fences before + fences pieces) rest
  have hbehind : IsScan (engine.answer store) (fences before) ((stale ++ [closing]) ++ rest) (pieces ++ qs) :=
    (hpieces.congr (by simpa using heven)).append (by simpa using hclosing) hqs
  have hfence := Line.isFence_of_opensRegion hopens
  have hkept : IsScan (engine.answer store) (fences before) (opening :: (stale ++ closing :: rest))
      (.kept opening :: (pieces ++ qs)) := by
    refine isScan_cons.mpr ⟨stale ++ closing :: rest, rfl, fun _ _ => Or.inl ⟨e, hanswer⟩, ?_⟩
    simpa [Piece.isFence, hfence] using hbehind
  rw [← Nat.zero_add (fences before)] at hkept
  have hwhole := hscan.replaceBehind hkept fun hopen => absurd hclosing (hopen closing (by simp))
  have hscanned : IsScan (engine.answer store) 0
      ((before.flatMap Piece.lines ++ opening :: (stale ++ [closing])) ++ rest)
      ((before ++ .kept opening :: pieces) ++ qs) := by
    simpa using hwhole
  have hfences : fences (before ++ .kept opening :: pieces) = fences before + fences pieces := by
    simp [fences_append, fences_cons, Piece.isFence, hfence]
  refine failures_behind _ ?_ ?_ ?_ hscanned ?_
  · rw [htext]
    simp
  · simp [Piece.lines, hpieces.covers]
  · simp
    omega
  · rw [hfenced, hfences, Nat.even_add]
    simp [heven]

end Region

/-- **The failures behind a region,** where its directive gets no answer, and where another directive in its place
gets one. In the second case they are those which the lines behind the region have outside of code blocks. In the
first case the stale lines of the region are scanned, and with an even number of fences among what is kept of them
the failures are the same, with the same numbers; with an odd number they are those which the lines behind the region
have inside of a code block. So none of them is hidden and none is added just where this makes no difference. -/
theorem failures_behind_region {front stale rest : List Line} {opening opening' closing : Line} {text text' : Text}
    {e : Error} {rendered : Text} (htext : Text.lines text = front ++ opening :: (stale ++ closing :: rest))
    (htext' : Text.lines text' = front ++ opening' :: (stale ++ closing :: rest))
    (hlive : IsLive (engine.answer store) front opening (stale ++ closing :: rest))
    (hanswer : engine.answer store opening.trimmed = .error e) (hstale : ∀ l ∈ stale, ¬ l.closesRegion)
    (hclosing : closing.closesRegion) (hopens' : opening'.opensRegion)
    (hanswer' : engine.answer store opening'.trimmed = .ok rendered) :
    let number := front.length + stale.length + 2
    let outside := (processLines store engine false (number + 1) rest).failures
    let inside := (processLines store engine true (number + 1) rest).failures
    ∃ pieces, IsScan (engine.answer store) 0 (stale ++ [closing]) pieces ∧
      (failures store engine text').filter (number < ·.line) = outside ∧
      (failures store engine text).filter (number < ·.line) = (if Even (fences pieces) then outside else inside) ∧
      ((failures store engine text).filter (number < ·.line) =
          (failures store engine text').filter (number < ·.line) ↔
        Even (fences pieces) ∨ inside = outside) := by
  intro number outside inside
  obtain ⟨pieces, hpieces⟩ := exists_isScan store engine 0 (stale ++ [closing])
  have houtside : (failures store engine text').filter (number < ·.line) = outside :=
    failures_behind_answered htext' hlive hopens' hstale hclosing hanswer'
  have hfailed := fun fenced : Bool => @failures_behind_failed store engine front stale rest opening closing text
    pieces e htext hlive hclosing hanswer hpieces fenced
  refine ⟨pieces, hpieces, houtside, ?_⟩
  rw [houtside]
  by_cases heven : Even (fences pieces)
  · rw [if_pos heven, hfailed false (by simpa using heven)]
    exact ⟨rfl, iff_of_true rfl (Or.inl heven)⟩
  · rw [if_neg heven, hfailed true (by simpa using heven)]
    exact ⟨rfl, (or_iff_right heven).symm⟩

/-- A region that holds some stale lines, between a heading and a region whose source is not there. -/
def staleThenFailing (opening : Text) (stale : List Text) : Text :=
  "# R\n".toList ++ opening ++ stale.flatten ++ ["<!-- end-snippet -->\n", "<!-- begin-snippet: S.cs R -->\n",
    "<!-- end-snippet -->\n"].flatMap String.toList

/-- The lines of the later region. -/
def failingLines : List Line :=
  [⟨"<!-- begin-snippet: S.cs R -->".toList, .lf⟩, ⟨"<!-- end-snippet -->".toList, .lf⟩]

theorem isLive_heading (line : Line) (behind : List Line) (hopens : line.opensRegion) :
    IsLive (Engine.fresh.answer oneTypeStore) [⟨"# R".toList, .lf⟩] line behind := by
  obtain ⟨pieces, hpieces⟩ := exists_isScan oneTypeStore .fresh 0 (line :: behind)
  exact ⟨hopens, [.kept ⟨"# R".toList, .lf⟩], pieces, rfl, by decide +kernel,
    isScan_cons.mpr ⟨line :: behind, rfl, fun h => absurd h (by decide +kernel), hpieces⟩⟩

/-- What comes of the directive whose source is not there. -/
def sourceNotFound (source : Text) : Error :=
  .noImporter source [.notFound source, .reportNotFound (source ++ "/bin/Release".toList)]

/-- A code block that is left in a region which fails hides nothing of the region behind it. -/
theorem failures_behind_region_codeBlock :
    let stale := ["```cs\n", "class Q;\n", "```\n"].map String.toList
    let failing := staleThenFailing "<!-- begin-snippet: Q.cs R -->\n".toList stale
    let answered := staleThenFailing "<!-- begin-snippet: R.cs R -->\n".toList stale
    (failures oneTypeStore .fresh failing).filter (6 < ·.line) = [⟨7, sourceNotFound "S.cs".toList⟩] ∧
      (failures oneTypeStore .fresh answered).filter (6 < ·.line) = [⟨7, sourceNotFound "S.cs".toList⟩] := by
  intro stale failing answered
  have herror : Engine.fresh.answer oneTypeStore "<!-- begin-snippet: Q.cs R -->".toList =
      .error (sourceNotFound "Q.cs".toList) := by
    decide +kernel
  have hok : Engine.fresh.answer oneTypeStore "<!-- begin-snippet: R.cs R -->".toList =
      .ok (["```cs\n", "class R;\n", "```\n"].flatMap String.toList) := by
    decide +kernel
  obtain ⟨pieces, hpieces, -, -, hsame⟩ := @failures_behind_region oneTypeStore .fresh [⟨"# R".toList, .lf⟩]
    [⟨"```cs".toList, .lf⟩, ⟨"class Q;".toList, .lf⟩, ⟨"```".toList, .lf⟩] failingLines
    ⟨"<!-- begin-snippet: Q.cs R -->".toList, .lf⟩ ⟨"<!-- begin-snippet: R.cs R -->".toList, .lf⟩
    ⟨"<!-- end-snippet -->".toList, .lf⟩ failing answered _ _ (by decide +kernel) (by decide +kernel)
    (isLive_heading _ _ (by decide +kernel)) herror (by decide +kernel) (by decide +kernel) (by decide +kernel) hok
  have hfences : Even (fences pieces) := by
    rw [hpieces.unique (isScan_map_kept (by decide +kernel) 0), fences_map_kept]
    decide +kernel
  have hanswered : (failures oneTypeStore .fresh answered).filter (6 < ·.line) =
      [⟨7, sourceNotFound "S.cs".toList⟩] := by
    decide +kernel
  exact ⟨(hsame.mpr (Or.inl hfences)).trans hanswered, hanswered⟩

/-- A fence that is left alone in a region which fails hides that the region behind it fails, too: both directives of
the document are live, and the second one fails where the first one does not. -/
theorem failures_behind_openFence :
    let stale := ["```\n"].map String.toList
    let failing := staleThenFailing "<!-- begin-snippet: Q.cs R -->\n".toList stale
    let answered := staleThenFailing "<!-- begin-snippet: R.cs R -->\n".toList stale
    let behind := [⟨"```".toList, .lf⟩, ⟨"<!-- end-snippet -->".toList, .lf⟩] ++ failingLines
    Text.lines failing = [⟨"# R".toList, .lf⟩, ⟨"<!-- begin-snippet: Q.cs R -->".toList, .lf⟩] ++ behind ∧
      Text.lines answered = [⟨"# R".toList, .lf⟩, ⟨"<!-- begin-snippet: R.cs R -->".toList, .lf⟩] ++ behind ∧
      IsLive (Engine.fresh.answer oneTypeStore) [⟨"# R".toList, .lf⟩]
        ⟨"<!-- begin-snippet: Q.cs R -->".toList, .lf⟩ behind ∧
      failures oneTypeStore .fresh failing = [⟨2, sourceNotFound "Q.cs".toList⟩] ∧
      failures oneTypeStore .fresh answered = [⟨5, sourceNotFound "S.cs".toList⟩] := by
  refine ⟨?_, ?_, isLive_heading _ _ ?_, ?_, ?_⟩
  · decide +kernel
  · decide +kernel
  · decide +kernel
  · decide +kernel
  · decide +kernel

end Document

end Excerpt
