import Excerpt.Proofs.Engine.Answer
import Excerpt.Proofs.Source.LineRange
import Excerpt.Proofs.Source.Places
import Excerpt.Proofs.Text.Stripping

/-!
# Excerpt — the lines of an excerpt and its content

The lines that an excerpt keeps are found by their text, and the line numbers that it tells are looked up for two
offsets. Both come to the same: the content has a line for each number, and each of its lines is what the excerpt
covers of the line of the source with that number.

* **`Text.lineAt`**, **`Text.partOfLine`** — the line of an offset, and what a range covers of a line.
* **`Text.partOfLine_line`** — a line of an excerpt is part of a line of the source.
* **`Fragment.exists_lines_eq_append`** — the lines that are kept and those that are not.
* **`SourceExtractor.extract_lines`** — the line numbers of an excerpt belong to the lines of its content.
-/

namespace Excerpt

namespace Text

/-- The line of an offset: as many line feeds stand before it. -/
def lineAt (s : Text) (offset : Nat) : Nat := (takeBytes offset s).count '\n'

/-- The characters of line `k` that begin in the range, without the line feed at its end. The text begins on `line`
and at `offset`. -/
def linePart (span : Span) (k line offset : Nat) : Text → Text
  | [] => []
  | c :: s =>
    let rest := linePart span k (if c = '\n' then line + 1 else line) (offset + c.utf8Size) s
    if line = k ∧ c ≠ '\n' ∧ span.start ≤ offset ∧ offset < span.stop then c :: rest else rest

/-- What the range covers of a line of the text. -/
def partOfLine (s : Text) (span : Span) (k : Nat) : Text := linePart span k 0 0 s

theorem lineAt_width (p q : Text) : lineAt (p ++ q) (width p) = p.count '\n' := by
  rw [lineAt, takeBytes_width_append]

section LinePart

variable {span : Span} {k line offset : Nat} {s : Text}

theorem linePart_append (span : Span) (k line offset : Nat) (a b : Text) :
    linePart span k line offset (a ++ b) =
      linePart span k line offset a ++ linePart span k (line + a.count '\n') (offset + width a) b := by
  induction a generalizing line offset with
  | nil => rfl
  | cons c a ih =>
    have hline : (if c = '\n' then line + 1 else line) + a.count '\n' = line + (c :: a).count '\n' := by
      by_cases hc : c = '\n'
      · rw [if_pos hc, hc, List.count_cons_self]
        omega
      · rw [if_neg hc, List.count_cons_of_ne hc]
    rw [List.cons_append, linePart, linePart, ih, hline, width_cons, Nat.add_assoc]
    split <;> rfl

/-- Nothing is taken where the condition, which is kept from one character to the next, excludes each of them. -/
theorem linePart_eq_nil (P : Nat → Nat → Text → Prop)
    (hstep : ∀ line offset c s, P line offset (c :: s) →
      ¬ (line = k ∧ c ≠ '\n' ∧ span.start ≤ offset ∧ offset < span.stop) ∧
        P (if c = '\n' then line + 1 else line) (offset + c.utf8Size) s)
    (h : P line offset s) : linePart span k line offset s = [] := by
  induction s generalizing line offset with
  | nil => rfl
  | cons c s ih =>
    obtain ⟨hnot, hrest⟩ := hstep line offset c s h
    rw [linePart, if_neg hnot, ih hrest]

theorem linePart_before (h : offset + width s ≤ span.start) : linePart span k line offset s = [] := by
  refine linePart_eq_nil (fun _ offset s => offset + width s ≤ span.start) ?_ h
  intro line offset c s h
  have hpos := c.utf8Size_pos
  rw [width_cons] at h
  exact ⟨fun hin => by omega, by omega⟩

theorem linePart_behind (h : span.stop ≤ offset) : linePart span k line offset s = [] := by
  refine linePart_eq_nil (fun _ offset _ => span.stop ≤ offset) ?_ h
  intro line offset c s h
  exact ⟨fun hin => by omega, by omega⟩

theorem linePart_below (h : k < line) : linePart span k line offset s = [] := by
  refine linePart_eq_nil (fun line _ _ => k < line) ?_ h
  intro line offset c s h
  exact ⟨fun hin => by omega, by split <;> omega⟩

theorem linePart_above (hs : '\n' ∉ s) (h : line ≠ k) : linePart span k line offset s = [] := by
  refine linePart_eq_nil (fun line _ s => '\n' ∉ s ∧ line ≠ k) ?_ ⟨hs, h⟩
  rintro line offset c s ⟨hs, h⟩
  obtain ⟨hc, hs⟩ : ¬ '\n' = c ∧ '\n' ∉ s := by simpa using hs
  exact ⟨fun hin => h hin.1, hs, by rwa [if_neg (Ne.symm hc)]⟩

theorem linePart_within (hs : '\n' ∉ s) (hstart : span.start ≤ offset) (hstop : offset + width s ≤ span.stop) :
    linePart span k k offset s = s := by
  induction s generalizing offset with
  | nil => rfl
  | cons c s ih =>
    have hpos := c.utf8Size_pos
    obtain ⟨hc, hs⟩ : ¬ '\n' = c ∧ '\n' ∉ s := by simpa using hs
    rw [width_cons] at hstop
    rw [linePart, if_neg (Ne.symm hc), if_pos ⟨rfl, Ne.symm hc, hstart, by omega⟩, ih hs (by omega) (by omega)]

theorem linePart_lineFeed (span : Span) (k line offset : Nat) : linePart span k line offset ['\n'] = [] := by
  simp [linePart]

end LinePart

end Text

/-! ## Lines of a part of the text -/

/-- The line with the carriage return of its terminator. -/
def Line.uncut (l : Line) : Text := if l.terminator = .crlf then l.text ++ ['\r'] else l.text

theorem Line.written_eq_uncut (l : Line) : l.written = l.uncut ++ (if l.terminator = .none then [] else ['\n']) := by
  obtain ⟨text, terminator⟩ := l
  cases terminator <;> simp [Line.written, uncut, Terminator.text]

theorem Line.notMem_uncut {l : Line} (h : l.IsProper) : '\n' ∉ l.uncut := by
  have hfeed := h.noLineFeed
  unfold uncut
  split <;> simp [hfeed]

namespace Text

variable {s : Text} {front back : List Line} {l : Line}

theorem forall_isEnded_of_lines_eq (hlines : lines s = front ++ l :: back) :
    (∀ l ∈ front, l.IsProper ∧ l.IsEnded) ∧ IsLines (l :: back) := by
  have h := isLines_lines s
  rw [hlines] at h
  exact ⟨h.isProper_isEnded_of_append (List.cons_ne_nil l back), h.of_append⟩

/-- Each of some terminated lines has one line feed. -/
theorem count_flatMap_written (hfront : ∀ l ∈ front, l.IsProper ∧ l.IsEnded) :
    (front.flatMap Line.written).count '\n' = front.length := by
  induction front with
  | nil => rfl
  | cons l front ih =>
    obtain ⟨⟨hproper, hended⟩, hfront⟩ := List.forall_mem_cons.mp hfront
    rw [List.flatMap_cons, List.count_append, ih hfront, l.written_eq_uncut, if_neg hended, List.count_append,
      List.count_eq_zero_of_not_mem (Line.notMem_uncut hproper), List.length_cons]
    simp [Nat.add_comm]

theorem linePart_front {span : Span} {k line offset : Nat} (hfront : ∀ l ∈ front, l.IsProper ∧ l.IsEnded)
    (hk : line + front.length ≤ k) : linePart span k line offset (front.flatMap Line.written) = [] := by
  induction front generalizing line offset with
  | nil => rfl
  | cons l front ih =>
    obtain ⟨⟨hproper, hended⟩, hfront⟩ := List.forall_mem_cons.mp hfront
    have hfree := Line.notMem_uncut hproper
    rw [List.length_cons] at hk
    rw [List.flatMap_cons, l.written_eq_uncut, if_neg hended, linePart_append, linePart_append,
      linePart_above hfree (by omega), linePart_lineFeed, ih hfront]
    · rfl
    · rw [List.count_append, List.count_eq_zero_of_not_mem hfree]
      simp
      omega

/-- **A line of a part of the text is what the part covers of a line of the text.** -/
theorem partOfLine_line (p q : Text) (hlines : lines s = front ++ l :: back) :
    partOfLine (p ++ (s ++ q)) ⟨width p, width p + width s⟩ (p.count '\n' + front.length) = l.uncut := by
  obtain ⟨hfront, hback⟩ := forall_isEnded_of_lines_eq hlines
  have hfree := Line.notMem_uncut (hback.isProper List.mem_cons_self)
  have hs : s = front.flatMap Line.written ++ (l.written ++ back.flatMap Line.written) := by
    rw [← List.flatMap_cons, ← List.flatMap_append, ← hlines, flatMap_written_lines]
  have hwidth : width s = width (front.flatMap Line.written) + (width l.uncut +
      (width (if l.terminator = .none then [] else ['\n']) + width (back.flatMap Line.written))) := by
    rw [← width_append, ← width_append, ← width_append, ← List.append_assoc l.uncut, ← l.written_eq_uncut, ← hs]
  have htext : s ++ q = front.flatMap Line.written ++ (l.uncut ++
      ((if l.terminator = .none then [] else ['\n']) ++ (back.flatMap Line.written ++ q))) := by
    rw [← List.append_assoc l.uncut, ← l.written_eq_uncut, ← List.append_assoc l.written, ← List.append_assoc, ← hs]
  unfold partOfLine
  rw [linePart_append, linePart_before (by dsimp only; omega), htext, linePart_append, linePart_front hfront (by omega),
    linePart_append, count_flatMap_written hfront, List.nil_append, List.nil_append, Nat.zero_add, Nat.zero_add,
    linePart_within hfree (by dsimp only; omega) (by dsimp only; omega), List.count_eq_zero_of_not_mem hfree]
  -- behind the line the text goes on with a line feed, or the range ends
  refine (congrArg (l.uncut ++ ·) ?_).trans (List.append_nil _)
  by_cases hterminator : l.terminator = .none
  · have hnone : back = [] := by
      by_contra hne
      exact hback.isEnded_of_cons hne hterminator
    rw [if_pos hterminator] at hwidth ⊢
    rw [hnone] at hwidth
    refine linePart_behind ?_
    simp only [width_nil, List.flatMap_nil] at hwidth
    dsimp only
    omega
  · rw [if_neg hterminator, linePart_append, linePart_lineFeed]
    exact linePart_below (by simp)

/-! ## The first and the last line with something on them -/

theorem isBlank_flatMap_written (h : ∀ l ∈ front, isBlank l.text = true) :
    isBlank (front.flatMap Line.written) = true := by
  rw [isBlank_iff]
  intro c hc
  obtain ⟨l, hl, hcl⟩ := List.mem_flatMap.mp hc
  rcases List.mem_append.mp hcl with hmem | hmem
  · exact isBlank_iff.mp (h l hl) c hmem
  · exact isBlank_iff.mp (by cases l.terminator <;> decide) c hmem

theorem eq_append_of_lines_eq (hlines : lines s = front ++ l :: back) :
    s = front.flatMap Line.written ++ (l.text ++ (l.terminator.text ++ back.flatMap Line.written)) := by
  rw [← List.append_assoc l.text, ← Line.written_def, ← List.flatMap_cons, ← List.flatMap_append, ← hlines,
    flatMap_written_lines]

theorem count_takeWhile_lines (hlines : lines s = front ++ l :: back) (hfront : ∀ l ∈ front, isBlank l.text = true)
    (hl : isBlank l.text = false) : (s.takeWhile isWhiteSpace).count '\n' = front.length := by
  obtain ⟨hended, hback⟩ := forall_isEnded_of_lines_eq hlines
  obtain ⟨a, d, b, htext, hd, -⟩ := exists_eq_append_of_not_isBlank hl
  have hfree : '\n' ∉ a.takeWhile isWhiteSpace := by
    intro hmem
    apply (hback.isProper List.mem_cons_self).noLineFeed
    rw [htext]
    exact List.mem_append_left _ ((List.takeWhile_prefix _).subset hmem)
  rw [eq_append_of_lines_eq hlines, List.takeWhile_append_of_pos (isBlank_iff.mp (isBlank_flatMap_written hfront)),
    htext, List.append_assoc, List.cons_append, takeWhile_append_stop hd, List.count_append,
    count_flatMap_written hended, List.count_eq_zero_of_not_mem hfree, Nat.add_zero]

theorem count_trimEnd_lines (hlines : lines s = front ++ l :: back) (hl : isBlank l.text = false)
    (hback : ∀ l ∈ back, isBlank l.text = true) : (trimEnd s).count '\n' = front.length := by
  obtain ⟨hended, hlast⟩ := forall_isEnded_of_lines_eq hlines
  obtain ⟨a, d, b, htext, hd, hb⟩ := exists_eq_append_of_not_isBlank hl
  have htail : isBlank (b ++ (l.terminator.text ++ back.flatMap Line.written)) = true := by
    have hterminator : isBlank l.terminator.text = true := by cases l.terminator <;> decide
    have hbehind := isBlank_flatMap_written hback
    unfold isBlank at hb hterminator hbehind ⊢
    rw [List.all_append, List.all_append, hb, hterminator, hbehind]
    rfl
  have hfree : '\n' ∉ a ++ [d] := by
    intro hmem
    apply (hlast.isProper List.mem_cons_self).noLineFeed
    rw [htext, List.append_cons]
    exact List.mem_append_left b hmem
  have hs : s = front.flatMap Line.written ++ a ++ d :: (b ++ (l.terminator.text ++ back.flatMap Line.written)) := by
    refine (eq_append_of_lines_eq hlines).trans ?_
    rw [htext]
    simp only [List.append_assoc, List.cons_append]
  rw [hs, trimEnd_append hd htail, List.append_assoc, List.count_append, count_flatMap_written hended,
    List.count_eq_zero_of_not_mem hfree, Nat.add_zero]

end Text

namespace Fragment

/-- **The lines that are kept of a text that is not blank:** all from the first one that is not blank to the last
one. -/
theorem exists_lines_eq_append {s : Text} (h : Text.isBlank s = false) :
    ∃ front kept back, Text.lines s = front ++ (kept ++ back) ∧ keptLines s = kept.map Line.text ∧ kept ≠ [] ∧
      (∀ l ∈ front, Text.isBlank l.text = true) ∧ (∀ l ∈ back, Text.isBlank l.text = true) ∧
      (∀ l ∈ kept.head?, Text.isBlank l.text = false) ∧ ∀ l ∈ kept.getLast?, Text.isBlank l.text = false := by
  obtain ⟨a, b, hparts, ha, hb⟩ := exists_dropBlankEdges ((Text.lines s).map Line.text)
  obtain ⟨front, rest, hfront, rfl, hrest⟩ := List.map_eq_append_iff.mp hparts
  obtain ⟨kept, back, rfl, hkept, rfl⟩ := List.map_eq_append_iff.mp hrest
  rw [List.forall_mem_map] at ha hb
  refine ⟨front, kept, back, hfront, hkept.symm, ?_, ha, hb, fun l hl => ?_, fun l hl => ?_⟩
  · -- blank lines make up a blank text
    rintro rfl
    have hblank : Text.isBlank ((front ++ back).flatMap Line.written) = true :=
      Text.isBlank_flatMap_written (List.forall_mem_append.mpr ⟨ha, hb⟩)
    have hs : (front ++ back).flatMap Line.written = s := by
      rw [← Text.flatMap_written_lines s, hfront, List.nil_append]
    rw [hs, h] at hblank
    exact nomatch hblank
  · have hhead : l.text ∈ (dropBlankEdges ((Text.lines s).map Line.text)).head? := by
      rw [← hkept, List.head?_map]
      exact Option.mem_map_of_mem Line.text hl
    exact isBlank_of_mem_head?_dropBlankEdges hhead
  · have hlast : l.text ∈ (dropBlankEdges ((Text.lines s).map Line.text)).getLast? := by
      rw [← hkept, List.getLast?_map]
      exact Option.mem_map_of_mem Line.text hl
    exact isBlank_of_mem_getLast?_dropBlankEdges hlast

theorem stripIndent_uncut (indent : Nat) (l : Line) : stripIndent indent l.uncut = stripIndent indent l.text := by
  unfold Line.uncut
  split
  · exact stripIndent_append_return indent l.text
  · rfl

/-- **The lines of the content**, where it is not blank, are parts of the lines of the text around it, from the one
with the first character that is not white space to the one with the last. -/
theorem exists_splitOn_normalizeIndentation {s : Text} (h : Text.isBlank s = false) (p q : Text) (indent : Nat) :
    ∃ kept : List Line, (normalizeIndentation s indent).splitOn '\n' = kept.map (fun l => stripIndent indent l.uncut) ∧
      (p ++ s.takeWhile isWhiteSpace).count '\n' + kept.length = (p ++ Text.trimEnd s).count '\n' + 1 ∧
      ∀ i l, kept[i]? = some l → Text.partOfLine (p ++ (s ++ q)) ⟨Text.width p, Text.width p + Text.width s⟩
        ((p ++ s.takeWhile isWhiteSpace).count '\n' + i) = l.uncut := by
  obtain ⟨front, kept, back, hlines, hkept, hne, hfront, hback, hhead, hlast⟩ := exists_lines_eq_append h
  have hfirst : (s.takeWhile isWhiteSpace).count '\n' = front.length := by
    obtain ⟨l, rest, rfl⟩ := List.exists_cons_of_ne_nil hne
    exact Text.count_takeWhile_lines hlines hfront (hhead l rfl)
  have hend : (Text.trimEnd s).count '\n' + 1 = front.length + kept.length := by
    obtain ⟨init, l, rfl⟩ : ∃ init l, kept = init ++ [l] := ⟨_, _, (List.dropLast_concat_getLast hne).symm⟩
    have hlines' : Text.lines s = (front ++ init) ++ l :: back := by
      rw [hlines]
      simp only [List.append_assoc, List.cons_append, List.nil_append]
    rw [Text.count_trimEnd_lines hlines' (hlast l List.getLast?_concat) hback, List.length_append, List.length_append,
      List.length_singleton, Nat.add_assoc]
  refine ⟨kept, ?_, ?_, fun i l hl => ?_⟩
  · rw [splitOn_normalizeIndentation (by rw [hkept]; exact mt List.map_eq_nil_iff.mp hne), hkept, List.map_map]
    exact List.map_congr_left fun l _ => (stripIndent_uncut indent l).symm
  · rw [List.count_append, List.count_append, hfirst]
    omega
  · obtain ⟨hi, rfl⟩ := List.getElem?_eq_some_iff.mp hl
    have hlines' : Text.lines s = (front ++ kept.take i) ++ kept[i] :: (kept.drop (i + 1) ++ back) := by
      rw [hlines, List.append_assoc, ← List.cons_append, ← List.append_assoc (kept.take i),
        ← List.drop_eq_getElem_cons hi, List.take_append_drop]
    have hpart := Text.partOfLine_line p q hlines'
    rwa [List.length_append, List.length_take, Nat.min_eq_left (Nat.le_of_lt hi), ← hfirst, ← Nat.add_assoc,
      ← List.count_append] at hpart

end Fragment

/-- The lines of a range are those of the first and of the last character in it that is not white space. -/
structure LineRange.IsOf (range : LineRange) (text : Text) (span : Span) : Prop where
  first : ∀ lead c more, span.slice text = lead ++ c :: more → Text.isBlank lead = true → isWhiteSpace c = false →
    range.first = Text.lineAt text (span.start + Text.width lead)
  last : ∀ front c tail, span.slice text = front ++ c :: tail → isWhiteSpace c = false → Text.isBlank tail = true →
    range.last = Text.lineAt text (span.start + Text.width front)

namespace SourceFile

variable {text : Text} {file : SourceFile}

/-- What stands before, in and behind a range. -/
theorem exists_append_of_isIn {span : Span} (h : span.IsIn text) :
    ∃ p s q, text = p ++ (s ++ q) ∧ span = ⟨Text.width p, Text.width p + Text.width s⟩ ∧ span.slice text = s := by
  obtain ⟨hle, ⟨p, ⟨rest, rfl⟩, hstart⟩, hstop⟩ := h
  obtain ⟨s, q, rfl, hwidth⟩ := hstop.exists_append (by omega)
  have hspan : span = ⟨Text.width p, Text.width p + Text.width s⟩ := by
    rw [hwidth, hstart]
  refine ⟨p, s, q, rfl, hspan, ?_⟩
  rw [hspan]
  exact Text.slice_append p s q

theorem isOf_lineRange (hlayout : file.layout = Layout.ofText text) {span : Span} (hspan : span.IsIn text)
    (hblank : Text.isBlank (span.slice text) = false) : (file.lineRange span).IsOf text span := by
  obtain ⟨p, s, q, rfl, rfl, hslice⟩ := exists_append_of_isIn hspan
  rw [hslice] at hblank
  have hrange := lineRange_of_not_isBlank hlayout hblank
  refine ⟨?_, ?_⟩
  · intro lead c more heq hlead hc
    rw [hslice] at heq
    have htake : s.takeWhile isWhiteSpace = lead := by
      rw [heq, List.takeWhile_append_of_pos (Text.isBlank_iff.mp hlead),
        List.takeWhile_cons_of_neg (by rw [hc]; decide), List.append_nil]
    have hat : Text.lineAt (p ++ (s ++ q)) (Text.width (p ++ lead)) = (p ++ lead).count '\n' := by
      rw [heq, List.append_assoc lead, ← List.append_assoc p]
      exact Text.lineAt_width _ _
    rw [Text.width_append] at hat
    rw [hrange, hat, htake]
  · intro front c tail heq hc htail
    rw [hslice] at heq
    have hat : Text.lineAt (p ++ (s ++ q)) (Text.width (p ++ front)) = (p ++ front).count '\n' := by
      rw [heq, List.append_assoc front, ← List.append_assoc p]
      exact Text.lineAt_width _ _
    have hfeed : c ≠ '\n' := by
      rintro rfl
      exact absurd hc (by decide)
    have hend : (p ++ Text.trimEnd s).count '\n' = (p ++ front).count '\n' := by
      rw [heq, Text.trimEnd_append hc htail, ← List.append_assoc, List.count_append, List.count_cons_of_ne hfeed]
      rfl
    rw [Text.width_append] at hat
    rw [hrange, hat, hend]

/-- A range of white space has the line on which it begins. -/
theorem lineRange_eq_of_isBlank (hlayout : file.layout = Layout.ofText text) {span : Span} (hspan : span.IsIn text)
    (hblank : Text.isBlank (span.slice text) = true) :
    file.lineRange span = ⟨Text.lineAt text span.start, Text.lineAt text span.start⟩ := by
  obtain ⟨p, s, q, rfl, rfl, hslice⟩ := exists_append_of_isIn hspan
  rw [hslice] at hblank
  rw [lineRange_of_isBlank hlayout hblank, Text.lineAt_width]

/-- **The lines of an excerpt:** one for each line number, and each of them what the range covers of that line, with
its indentation off. -/
theorem splitOn_content (hlayout : file.layout = Layout.ofText text) {span : Span} (hspan : span.IsIn text)
    (hblank : Text.isBlank (span.slice text) = false) (indent : Nat) :
    let content := Fragment.normalizeIndentation (span.slice text) indent
    (file.lineRange span).first + (content.splitOn '\n').length = (file.lineRange span).last + 1 ∧
      ∀ (i : Nat) (line : Text), (content.splitOn '\n')[i]? = some line →
        line = Fragment.stripIndent indent (Text.partOfLine text span ((file.lineRange span).first + i)) := by
  intro content
  obtain ⟨p, s, q, rfl, rfl, hslice⟩ := exists_append_of_isIn hspan
  rw [hslice] at hblank
  obtain ⟨kept, hsplit, hlength, hparts⟩ := Fragment.exists_splitOn_normalizeIndentation hblank p q indent
  rw [← hslice] at hsplit
  rw [lineRange_of_not_isBlank hlayout hblank, hsplit, List.length_map]
  refine ⟨hlength, fun i line hline => ?_⟩
  rw [List.getElem?_map] at hline
  obtain ⟨l, hl, rfl⟩ := Option.map_eq_some_iff.mp hline
  rw [hparts i l hl]

end SourceFile

namespace SourceExtractor

variable {source text name : Text} {options : Options} {x : SourceExtractor} {store : Store} {fragment : Fragment}

/-- What is extracted from the text of a source is an excerpt of its file. -/
theorem exists_extract_of_ok (hview : x.view store source = outlined source text)
    (h : (x.extract store source name options).1 = .ok fragment) :
    ∃ file bodyOnly place, SourceFile.parse? text = some file ∧
      options.getBoolean "body-only".toList false = .ok bodyOnly ∧ file.locate name bodyOnly = .ok place ∧
      fragment.lines = some (file.lineRange place.span) ∧
      fragment.content = Fragment.normalizeIndentation (place.span.slice text)
        ((LineTable.ofText text).columnOf place.anchor) := by
  obtain ⟨bodyOnly, file, place, hbodyOnly, -, hfile, hplace, rfl⟩ := extract_fst_eq_ok_iff.mp h
  rw [hview, outlined] at hfile
  cases hparse : SourceFile.parse? text with
  | none =>
    rw [hparse] at hfile
    exact nomatch hfile
  | some parsed =>
    rw [hparse] at hfile
    obtain rfl := Except.ok.inj hfile
    refine ⟨parsed, bodyOnly, place, rfl, hbodyOnly, hplace, rfl, ?_⟩
    show Fragment.normalizeIndentation (place.span.slice parsed.layout.text)
      (parsed.layout.lines.columnOf place.anchor) = _
    rw [SourceFile.layout_of_parse? hparse]
    rfl

/-- **The line numbers of an excerpt belong to the lines of its content.** -/
theorem extract_lines (hview : x.view store source = outlined source text)
    (h : (x.extract store source name options).1 = .ok fragment) :
    ∃ file bodyOnly place range, SourceFile.parse? text = some file ∧
      options.getBoolean "body-only".toList false = .ok bodyOnly ∧ file.locate name bodyOnly = .ok place ∧
      fragment.lines = some range ∧
      (fragment.content = [] ↔ Text.isBlank (place.span.slice text) = true) ∧
      (fragment.content = [] →
        range = ⟨Text.lineAt text place.span.start, Text.lineAt text place.span.start⟩) ∧
      (fragment.content ≠ [] → range.IsOf text place.span ∧
        range.first + (fragment.content.splitOn '\n').length = range.last + 1 ∧
        ∀ (i : Nat) (line : Text), (fragment.content.splitOn '\n')[i]? = some line →
          let part := Text.partOfLine text place.span (range.first + i)
          let indent := min ((LineTable.ofText text).columnOf place.anchor) (part.takeWhile isIndent).length
          line = Text.dropEndWhile (· = '\r') (part.drop indent)) := by
  obtain ⟨file, bodyOnly, place, hfile, hbodyOnly, hplace, hlines, hcontent⟩ := exists_extract_of_ok hview h
  have hspan := (SourceFile.isPlace_of_locate hfile hplace).isIn hfile
  have hlayout := SourceFile.layout_of_parse? hfile
  have hnil : fragment.content = [] ↔ Text.isBlank (place.span.slice text) = true := by
    rw [hcontent, Fragment.normalizeIndentation_eq_nil_iff]
  refine ⟨file, bodyOnly, place, _, hfile, hbodyOnly, hplace, hlines, hnil, fun hempty => ?_, fun hne => ?_⟩
  · exact SourceFile.lineRange_eq_of_isBlank hlayout hspan (hnil.mp hempty)
  · have hblank : Text.isBlank (place.span.slice text) = false := Bool.eq_false_iff.mpr (mt hnil.mpr hne)
    rw [hcontent]
    exact ⟨SourceFile.isOf_lineRange hlayout hspan hblank, SourceFile.splitOn_content hlayout hspan hblank _⟩

/-- A type whose members begin and end within lines. -/
def membersWithinLines : Text := "// A\r\n  class A \x7b int Ä;\r\n\r\n\t  int B; \x7d // end".toList

theorem extract_lines_membersWithinLines :
    ∃ fragment range, (fresh.extract (storeOf membersWithinLines) "R.cs".toList "A".toList
        ⟨[("body-only".toList, "true".toList)]⟩).1 = .ok fragment ∧
      fragment.content = "int Ä;\n\nint B;".toList ∧ fragment.lines = some range ∧
      range.first + (fragment.content.splitOn '\n').length = range.last + 1 := by
  have hextract : (fresh.extract (storeOf membersWithinLines) "R.cs".toList "A".toList
      ⟨[("body-only".toList, "true".toList)]⟩).1 =
        .ok ⟨"R.cs".toList, "A".toList, some ⟨1, 3⟩, "int Ä;\n\nint B;".toList, "cs".toList⟩ := by
    decide +kernel
  obtain ⟨file, bodyOnly, place, range, -, -, -, hrange, -, -, hlines⟩ :=
    extract_lines (view_eq_outlined rfl rfl) hextract
  exact ⟨_, range, hextract, rfl, hrange, (hlines (by decide +kernel)).2.1⟩

end SourceExtractor

end Excerpt
