import Excerpt.Proofs.Text.Indentation

/-!
# Excerpt — how much indentation is taken off

The content of an excerpt tells how far its lines were moved to the left, up to the indentation that each of them
has. Nothing is lost in it that is visible.

* **`Fragment.stripIndent_eq`** — what is left of a line.
* **`Fragment.normalizeIndentation_eq_iff`** — moving the lines further changes nothing just where none is indented
  further.
* **`Text.visible`** — a text without its white space; **`Fragment.visible_normalizeIndentation`** — it is the same in
  the content as in the text.
* **`Fragment.normalizeIndentation_eq_nil_iff`** — the content is empty just where the text is blank.
-/

namespace Excerpt

namespace Text

/-- What stands at the end of a text is dropped behind all that is not to be dropped. -/
theorem dropEndWhile_append {p : Char → Bool} {a : Text} (ha : ∀ c ∈ a, p c = false) (b : Text) :
    dropEndWhile p (a ++ b) = a ++ dropEndWhile p b := by
  have hfront : a.reverse.dropWhile p = a.reverse := by
    cases hreverse : a.reverse with
    | nil => rfl
    | cons c r =>
      have hc := ha c (List.mem_reverse.mp (hreverse ▸ List.mem_cons_self))
      exact List.dropWhile_cons_of_neg (by rw [hc]; decide)
  unfold dropEndWhile
  rw [List.reverse_append, List.dropWhile_append]
  split
  · next hnil => rw [hfront, List.reverse_reverse, List.isEmpty_iff.mp hnil, List.reverse_nil, List.append_nil]
  · rw [List.reverse_append, List.reverse_reverse]

/-! ## What is visible -/

/-- The text without its white space. -/
def visible (s : Text) : Text := s.filter (! isWhiteSpace ·)

@[simp] theorem visible_nil : visible [] = [] := rfl

@[simp] theorem visible_append (s t : Text) : visible (s ++ t) = visible s ++ visible t := List.filter_append s t

theorem visible_eq_nil_iff {s : Text} : visible s = [] ↔ isBlank s = true := by
  rw [visible, List.filter_eq_nil_iff, isBlank_iff]
  simp

theorem count_visible {c : Char} (hc : isWhiteSpace c = false) (s : Text) : (visible s).count c = s.count c :=
  List.count_filter (by rw [hc]; rfl)

theorem visible_dropEndWhile {p : Char → Bool} (hp : ∀ c, p c = true → isWhiteSpace c = true) (s : Text) :
    visible (dropEndWhile p s) = visible s := by
  obtain ⟨tail, hparts, htail⟩ := exists_dropEndWhile p s
  have hblank : visible tail = [] := visible_eq_nil_iff.mpr (isBlank_iff.mpr fun c hc => hp c (htail c hc))
  have hvisible := congrArg visible hparts
  rw [visible_append, hblank, List.append_nil] at hvisible
  exact hvisible.symm

/-- Nothing of blank lines is visible. -/
theorem flatMap_visible_of_isBlank {ls : List Text} (h : ∀ l ∈ ls, isBlank l = true) : ls.flatMap visible = [] :=
  List.flatMap_eq_nil_iff.mpr fun l hl => visible_eq_nil_iff.mpr (h l hl)

/-- Joining pieces adds line feeds only. -/
theorem visible_intercalate (ls : List Text) : visible (['\n'].intercalate ls) = ls.flatMap visible := by
  induction ls with
  | nil => rfl
  | cons l ls ih =>
    by_cases hls : ls = []
    · simp [hls, List.intercalate]
    · have hfeed : visible ['\n'] = [] := visible_eq_nil_iff.mpr (by decide)
      rw [List.intercalate_cons_of_ne_nil hls, visible_append, visible_append, hfeed, ih, List.flatMap_cons,
        List.append_nil]

theorem visible_written (l : Line) : visible l.written = visible l.text := by
  have hterminator : visible l.terminator.text = [] :=
    visible_eq_nil_iff.mpr (by cases l.terminator <;> decide)
  rw [Line.written, visible_append, hterminator, List.append_nil]

/-- What is visible of a text is visible in the texts of its lines. -/
theorem flatMap_visible_lines (s : Text) : ((lines s).map Line.text).flatMap visible = visible s := by
  have hwritten : ∀ ls : List Line, (ls.map Line.text).flatMap visible = visible (ls.flatMap Line.written) := by
    intro ls
    induction ls with
    | nil => rfl
    | cons l ls ih => rw [List.map_cons, List.flatMap_cons, List.flatMap_cons, visible_append, visible_written, ih]
  rw [hwritten, flatMap_written_lines]

end Text

namespace Fragment

/-- The lines that an excerpt keeps of a text. -/
def keptLines (s : Text) : List Text := dropBlankEdges ((Text.lines s).map Line.text)

theorem normalizeIndentation_def (s : Text) (indent : Nat) :
    normalizeIndentation s indent = ['\n'].intercalate ((keptLines s).map (stripIndent indent)) := rfl

theorem notMem_of_mem_keptLines {s l : Text} (h : l ∈ keptLines s) : '\n' ∉ l := by
  obtain ⟨line, hline, rfl⟩ := List.mem_map.mp (mem_of_mem_dropBlankEdges h)
  exact ((Text.isLines_lines s).isProper hline).1

/-! ## One line -/

/-- **What is left of a line:** its indentation behind the first characters, and its text. -/
theorem stripIndent_eq (indent : Nat) (l : Text) :
    stripIndent indent l =
      (l.takeWhile isIndent).drop indent ++ Text.dropEndWhile (· = '\r') (l.dropWhile isIndent) := by
  have hle : min indent (l.takeWhile isIndent).length ≤ (l.takeWhile isIndent).length := Nat.min_le_right _ _
  have hall : (l.takeWhile isIndent).drop (min indent (l.takeWhile isIndent).length) =
      (l.takeWhile isIndent).drop indent := by
    rcases Nat.le_total indent (l.takeWhile isIndent).length with hin | hout
    · rw [Nat.min_eq_left hin]
    · rw [Nat.min_eq_right hout, List.drop_length, List.drop_eq_nil_of_le hout]
  have hdrop : l.drop (min indent (l.takeWhile isIndent).length) =
      (l.takeWhile isIndent).drop indent ++ l.dropWhile isIndent := by
    have hparts := List.takeWhile_append_dropWhile (p := isIndent) (l := l)
    have happend : (l.takeWhile isIndent ++ l.dropWhile isIndent).drop
        (min indent (l.takeWhile isIndent).length) =
          (l.takeWhile isIndent).drop (min indent (l.takeWhile isIndent).length) ++ l.dropWhile isIndent :=
      List.drop_append_of_le_length hle
    rwa [hparts, hall] at happend
  -- a carriage return is no indentation, so none is dropped from in front of the text
  have hreturn : ∀ c ∈ (l.takeWhile isIndent).drop indent, decide (c = '\r') = false := by
    intro c hc
    have hindent := List.mem_takeWhile_imp (List.mem_of_mem_drop hc)
    rw [decide_eq_false_iff_not]
    rintro rfl
    exact absurd hindent (by decide)
  unfold stripIndent
  dsimp only
  rw [hdrop, Text.dropEndWhile_append hreturn]

theorem length_stripIndent (indent : Nat) (l : Text) :
    (stripIndent indent l).length =
      (l.takeWhile isIndent).length - indent + (Text.dropEndWhile (· = '\r') (l.dropWhile isIndent)).length := by
  rw [stripIndent_eq, List.length_append, List.length_drop]

/-- Taking off more changes a line that is indented further. -/
theorem stripIndent_eq_iff {i j : Nat} (h : i < j) (l : Text) :
    stripIndent j l = stripIndent i l ↔ (l.takeWhile isIndent).length ≤ i := by
  constructor
  · intro heq
    have hlength := congrArg List.length heq
    rw [length_stripIndent, length_stripIndent] at hlength
    omega
  · intro hle
    rw [stripIndent_eq, stripIndent_eq, List.drop_eq_nil_of_le hle, List.drop_eq_nil_of_le (by omega)]

theorem notMem_stripIndent {l : Text} (h : '\n' ∉ l) (indent : Nat) : '\n' ∉ stripIndent indent l := by
  intro hmem
  apply h
  unfold stripIndent Text.dropEndWhile at hmem
  exact List.mem_of_mem_drop (List.mem_reverse.mp ((List.dropWhile_suffix _).subset (List.mem_reverse.mp hmem)))

theorem visible_stripIndent (indent : Nat) (l : Text) : Text.visible (stripIndent indent l) = Text.visible l := by
  have hindent : Text.visible (l.takeWhile isIndent) = [] :=
    Text.visible_eq_nil_iff.mpr (Text.isBlank_iff.mpr fun c hc => isWhiteSpace_of_isIndent (List.mem_takeWhile_imp hc))
  have hdropped : Text.visible ((l.takeWhile isIndent).drop indent) = [] := by
    have hparts := congrArg Text.visible (List.take_append_drop indent (l.takeWhile isIndent))
    rw [Text.visible_append, hindent, List.append_eq_nil_iff] at hparts
    exact hparts.2
  have hreturn : ∀ c, decide (c = '\r') = true → isWhiteSpace c = true := by
    intro c hc
    rw [of_decide_eq_true hc]
    decide
  have hparts := congrArg Text.visible (List.takeWhile_append_dropWhile (p := isIndent) (l := l))
  rw [Text.visible_append, hindent, List.nil_append] at hparts
  rw [stripIndent_eq, Text.visible_append, hdropped, List.nil_append, Text.visible_dropEndWhile hreturn, hparts]

theorem isBlank_stripIndent (indent : Nat) (l : Text) : Text.isBlank (stripIndent indent l) = Text.isBlank l := by
  rw [Bool.eq_iff_iff, ← Text.visible_eq_nil_iff, visible_stripIndent, Text.visible_eq_nil_iff]

/-! ## All lines -/

/-- The lines are found again between the line feeds. -/
theorem splitOn_normalizeIndentation {s : Text} (h : keptLines s ≠ []) (indent : Nat) :
    (normalizeIndentation s indent).splitOn '\n' = (keptLines s).map (stripIndent indent) := by
  refine List.splitOn_intercalate '\n' ?_ (mt List.map_eq_nil_iff.mp h)
  intro l hl
  obtain ⟨line, hline, rfl⟩ := List.mem_map.mp hl
  exact notMem_stripIndent (notMem_of_mem_keptLines hline) indent

/-- **Moving the lines further to the left changes nothing just where none of them is indented further.** -/
theorem normalizeIndentation_eq_iff {i j : Nat} (h : i < j) (s : Text) :
    normalizeIndentation s j = normalizeIndentation s i ↔
      ∀ l ∈ keptLines s, (l.takeWhile isIndent).length ≤ i := by
  have hmap : normalizeIndentation s j = normalizeIndentation s i ↔
      (keptLines s).map (stripIndent j) = (keptLines s).map (stripIndent i) := by
    refine ⟨fun heq => ?_, fun heq => by rw [normalizeIndentation_def, normalizeIndentation_def, heq]⟩
    by_cases hnil : keptLines s = []
    · rw [hnil, List.map_nil, List.map_nil]
    · rw [← splitOn_normalizeIndentation hnil, ← splitOn_normalizeIndentation hnil, heq]
  rw [hmap, List.map_inj_left]
  exact forall₂_congr fun l _ => stripIndent_eq_iff h l

theorem flatMap_visible_keptLines (s : Text) : (keptLines s).flatMap Text.visible = Text.visible s := by
  obtain ⟨a, b, hparts, ha, hb⟩ := exists_dropBlankEdges ((Text.lines s).map Line.text)
  rw [← Text.flatMap_visible_lines s, hparts, List.flatMap_append, List.flatMap_append,
    Text.flatMap_visible_of_isBlank ha, Text.flatMap_visible_of_isBlank hb, List.nil_append, List.append_nil]
  rfl

/-- **What is visible is kept.** -/
theorem visible_normalizeIndentation (s : Text) (indent : Nat) :
    Text.visible (normalizeIndentation s indent) = Text.visible s := by
  rw [normalizeIndentation_def, Text.visible_intercalate, List.flatMap_map]
  simp only [visible_stripIndent]
  exact flatMap_visible_keptLines s

theorem count_normalizeIndentation {c : Char} (hc : isWhiteSpace c = false) (s : Text) (indent : Nat) :
    (normalizeIndentation s indent).count c = s.count c := by
  rw [← Text.count_visible hc, visible_normalizeIndentation, Text.count_visible hc]

theorem keptLines_of_isBlank {s : Text} (h : Text.isBlank s = true) : keptLines s = [] := by
  have hdrop : ((Text.lines s).map Line.text).dropWhile Text.isBlank = [] := by
    refine List.dropWhile_eq_nil_iff.mpr fun l hl => ?_
    obtain ⟨line, hline, rfl⟩ := List.mem_map.mp hl
    exact Text.isBlank_of_mem_lines h hline
  unfold keptLines dropBlankEdges
  rw [hdrop]
  rfl

/-- **Nothing is left of white space alone,** and of no other text. -/
theorem normalizeIndentation_eq_nil_iff (s : Text) (indent : Nat) :
    normalizeIndentation s indent = [] ↔ Text.isBlank s = true := by
  constructor
  · intro hnil
    rw [← Text.visible_eq_nil_iff, ← visible_normalizeIndentation s indent, hnil, Text.visible_nil]
  · intro hblank
    rw [normalizeIndentation_def, keptLines_of_isBlank hblank]
    rfl

end Fragment

end Excerpt
