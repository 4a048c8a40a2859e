import Excerpt.Proofs.Document.Failures

/-!
# Excerpt — documents one behind the other

A document that is processed without a failure, and whose code blocks are closed, leaves nothing behind but the engine:
no region reaches over its end, and no code block does. So a text that goes on behind it is processed as if it stood
alone, and the lines of its failures are counted from further up.

* **`LineFailure.behind`** — a failure with its lines counted from further up, those that its error names as well.
* **`Document.processLines_behind`** — the number of the first line is a matter of the failures only.
* **`Document.processLines_append`** — lines behind lines that divide, by induction on the pieces.
* **`Document.processInto_append`** — one run for two texts, and one run for each of them.
-/

namespace Excerpt

/-- The error as it is for a document with `n` more lines in front. -/
def Error.behind (n : Nat) : Error → Error
  | missingEndMarker line => missingEndMarker (n + line)
  | e => e

/-- The failure as it is for a document with `n` more lines in front. -/
def LineFailure.behind (n : Nat) (f : LineFailure) : LineFailure := ⟨n + f.line, f.error.behind n⟩

/-- What an engine answers with names no line. -/
theorem Engine.behind_of_answer_eq_error {store : Store} {engine : Engine} {line : Text} {e : Error}
    (h : engine.answer store line = .error e) (n : Nat) : e.behind n = e := by
  unfold Error.behind
  split
  · next number => exact absurd h (engine.answer_ne_missingEndMarker line number)
  · rfl

namespace Processed

/-- What processing gives for lines with `n` more lines in front. -/
def behind (n : Nat) (p : Processed) : Processed := { p with failures := p.failures.map (LineFailure.behind n) }

/-- What is processed first, and what is processed then with the engine that the first has left behind. -/
def append (p q : Processed) : Processed :=
  ⟨p.text ++ q.text, p.changed || q.changed, p.failures ++ q.failures, q.engine⟩

@[simp] theorem behind_keep (n : Nat) (text : Text) (p : Processed) :
    (p.keep text).behind n = (p.behind n).keep text := rfl

@[simp] theorem behind_fail (n number : Nat) (e : Error) (p : Processed) :
    (p.fail number e).behind n = (p.behind n).fail (n + number) (e.behind n) := rfl

@[simp] theorem behind_replace (n : Nat) (opening closing : Terminator) (rendered : Text) (p : Processed) :
    (p.replace opening closing rendered).behind n = (p.behind n).replace opening closing rendered := rfl

@[simp] theorem keep_append (text : Text) (p q : Processed) : (p.append q).keep text = (p.keep text).append q := by
  simp [append, keep]

@[simp] theorem replace_append (opening closing : Terminator) (rendered : Text) (p q : Processed) :
    (p.append q).replace opening closing rendered = (p.replace opening closing rendered).append q := by
  simp [append, replace]

end Processed

namespace Document

variable {store : Store}

/-- **The number of the first line is a matter of the failures only.** One case for each way to go on. -/
theorem processLines_behind (engine : Engine) (fenced : Bool) (n number : Nat) (lines : List Line) :
    processLines store engine fenced (n + number) lines =
      (processLines store engine fenced number lines).behind n := by
  fun_induction processLines store engine fenced number lines with
  | case1 => rw [processLines, Processed.behind, List.map_nil]
  | case2 engine fenced number line rest hfence ih =>
    rw [processLines, if_pos hfence, Processed.behind_keep, ← ih]
    rfl
  | case3 engine fenced number line rest hfence hshield ih =>
    rw [processLines, if_neg hfence, if_pos hshield, Processed.behind_keep, ← ih]
    rfl
  | case4 engine fenced number line rest hfence hlive e engine' hrender ih =>
    have herror := Engine.behind_of_answer_eq_error (Engine.answer_of_render_eq hrender).1 n
    rw [processLines, if_neg hfence, if_neg hlive, hrender, Processed.behind_keep, Processed.behind_fail, ← ih, herror]
    rfl
  | case5 engine fenced number line rest hfence hlive rendered engine' hrender hfind ih =>
    rw [processLines, if_neg hfence, if_neg hlive, hrender, Processed.behind_keep, Processed.behind_fail, ← ih]
    dsimp only
    rw [hfind]
    rfl
  | case6 engine fenced number line rest hfence hlive rendered engine' hrender i hfind closing ih =>
    rw [processLines, if_neg hfence, if_neg hlive, hrender, Processed.behind_keep, Processed.behind_replace, ← ih,
      show n + (number + i + 2) = n + number + i + 2 from by omega]
    dsimp only
    rw [hfind]

/-- **Lines behind lines that divide.** Induction on the pieces: each is passed as it would be without the lines
behind, since a region ends with the piece. -/
theorem processLines_append {answer : Text → Except Error Text} {engine : Engine}
    (hengine : engine.answer store = answer) {seen : Nat} {lines : List Line} {ps : List Piece}
    (h : IsDivision seen lines ps) (hans : ∀ p ∈ ps, p.Answered answer) {fenced fenced' : Bool}
    (hfenced : fenced = false ↔ Even seen) (hfenced' : fenced' = false ↔ Even (seen + fences ps)) (number : Nat)
    (rest : List Line) :
    let first := processLines store engine fenced number lines
    processLines store engine fenced number (lines ++ rest) =
      first.append (processLines store first.engine fenced' (number + lines.length) rest) := by
  induction ps generalizing seen lines engine fenced number with
  | nil =>
    obtain rfl := isDivision_nil.mp h
    have hsame : fenced = fenced' := Bool.eq_iff_iff.mpr (by simpa [fences] using not_congr (hfenced.trans hfenced'.symm))
    simp [processLines, Processed.append, hsame]
  | cons p ps ih =>
    obtain ⟨behind, rfl, hstands, hbehind⟩ := isDivision_cons.mp h
    have hansBehind : ∀ q ∈ ps, q.Answered answer := fun q hq => hans q (List.mem_cons_of_mem p hq)
    rw [fences_cons, ← Nat.add_assoc] at hfenced'
    cases p with
    | kept line =>
      have hrest := ih hengine hbehind hansBehind (unfenced_xor_iff hfenced line) hfenced' (number + 1)
      rw [show (Piece.kept line).lines ++ behind = line :: behind from rfl, List.cons_append,
        processLines_kept hstands hfenced, processLines_kept hstands hfenced, hrest, Processed.keep_append,
        List.length_cons, show number + 1 + behind.length = number + (behind.length + 1) from by omega]
      rfl
    | region opening old closing =>
      obtain ⟨rendered, hrendered⟩ := hans _ List.mem_cons_self
      obtain rfl : fenced = false := hfenced.mpr hstands.2.1
      obtain ⟨engine', hrender⟩ : ∃ engine', engine.render store opening.trimmed = (.ok rendered, engine') := by
        rw [← hengine] at hrendered
        exact ⟨_, Prod.ext hrendered rfl⟩
      have hengine' := (Engine.answer_of_render_eq hrender).2.trans hengine
      have hrest := ih hengine' hbehind hansBehind hfenced hfenced' (number + old.length + 2)
      have hlength : number + ((Piece.region opening old closing).lines ++ behind).length =
          number + old.length + 2 + behind.length := by
        simp [Piece.lines]
        omega
      rw [List.append_assoc, processLines_region hstands hrender, processLines_region hstands hrender, hrest,
        Processed.replace_append, Processed.keep_append, hlength]
      rfl

/-- A document is written just where its lines have no failure. -/
theorem processInto_eq (engine : Engine) (text before : Text) :
    processInto store engine text before =
      let p := processLines store engine false 1 (Text.lines text)
      if p.failures = [] then (.ok p.changed, before ++ p.text, p.engine) else (.error p.failures, before, p.engine) := by
  unfold processInto process
  dsimp only
  cases (processLines store engine false 1 (Text.lines text)).failures with
  | nil => rfl
  | cons f fs => rfl

/-- **One run for two texts, and one run for each of them.** Where the first text is empty or ended, is processed
without a failure and closes its code blocks, both together are processed as the second one is, by the engine that the
first has left behind and into what it has written. The failures of the second text are those of both, each with its
lines counted from the start of the first text. -/
theorem processInto_append {engine engine' : Engine} {a before output : Text} {changed : Bool} {pieces : List Piece}
    (ha : a = [] ∨ a.getLast? = some '\n') (h : processInto store engine a before = (.ok changed, output, engine'))
    (hdiv : IsDivision 0 (Text.lines a) pieces) (hclosed : Even (fences pieces)) (b : Text) :
    processInto store engine (a ++ b) before =
      match processInto store engine' b output with
      | (.ok changed', output, engine) => (.ok (changed || changed'), output, engine)
      | (.error failures, _, engine) =>
        (.error (failures.map (LineFailure.behind (Text.lines a).length)), before, engine) := by
  obtain ⟨written, hprocess⟩ := exists_process_eq_ok (congrArg Prod.fst h)
  obtain ⟨pieces', hdiv', hans, -⟩ := process_eq_ok_iff.mp hprocess
  obtain rfl := hdiv'.unique hdiv
  have heven : (false = false) ↔ Even 0 := by simp
  have hclosed' : (false = false) ↔ Even (0 + fences pieces') := by simpa using hclosed
  obtain ⟨-, -, hnone⟩ := processLines_of_isDivision rfl hdiv hans heven 1
  have hboth := processLines_append rfl hdiv hans heven hclosed' 1 (Text.lines b)
  -- what the first text gives is what it gives alone
  rw [processInto_eq, if_pos hnone] at h
  obtain ⟨hchanged, houtput, rfl⟩ : _ ∧ _ ∧ _ := by simpa using h
  dsimp only at hboth
  rw [← Text.lines_append ha, Nat.add_comm 1, processLines_behind] at hboth
  rw [processInto_eq, hboth, processInto_eq _ b, ← hchanged, ← houtput]
  simp only [Processed.append, Processed.behind, hnone, List.nil_append, List.map_eq_nil_iff]
  split
  · simp
  · simp

/-- A document with a directive that is shown in a code block, and with a region behind it. -/
def shownThenLive : Text :=
  ["```\n", "<!-- begin-snippet: S.cs R -->\n", "```\n", "<!-- begin-snippet: R.cs R -->\n",
    "<!-- end-snippet -->\n"].flatMap String.toList

/-- The pieces of the document. -/
def piecesOfShownThenLive : List Piece :=
  [.kept ⟨"```".toList, .lf⟩, .kept ⟨"<!-- begin-snippet: S.cs R -->".toList, .lf⟩, .kept ⟨"```".toList, .lf⟩,
    .region ⟨"<!-- begin-snippet: R.cs R -->".toList, .lf⟩ [] ⟨"<!-- end-snippet -->".toList, .lf⟩]

/-- Behind the five lines of this document the failures of another one are found in the lines 3 + 5 and 8 + 5. -/
theorem processInto_append_shownThenLive :
    ∃ first, (processInto oneTypeStore .fresh (shownThenLive ++ failingAndLive) ['x']).1 =
        .error [⟨8, first⟩, ⟨13, .missingEndMarker 13⟩] ∧
      (processInto oneTypeStore .fresh (shownThenLive ++ failingAndLive) ['x']).2.1 = ['x'] := by
  have hfirst : (processInto oneTypeStore .fresh shownThenLive ['x']).1 = .ok true := by decide +kernel
  have hdiv : IsDivision 0 (Text.lines shownThenLive) piecesOfShownThenLive := by decide +kernel
  have hsecond : (processInto oneTypeStore (processInto oneTypeStore .fresh shownThenLive ['x']).2.2 failingAndLive
      (processInto oneTypeStore .fresh shownThenLive ['x']).2.1).1 = .error
        [⟨3, .noImporter "S.cs".toList [.notFound "S.cs".toList, .reportNotFound "S.cs/bin/Release".toList]⟩,
          ⟨8, .missingEndMarker 8⟩] := by
    decide +kernel
  have hboth := processInto_append (Or.inr (by decide +kernel)) (Prod.ext hfirst rfl) hdiv (by decide +kernel)
    failingAndLive
  rw [hboth]
  revert hsecond
  obtain ⟨result, output, engine⟩ := processInto oneTypeStore
    (processInto oneTypeStore .fresh shownThenLive ['x']).2.2 failingAndLive
    (processInto oneTypeStore .fresh shownThenLive ['x']).2.1
  rintro rfl
  exact ⟨_, rfl, rfl⟩

end Document

end Excerpt
