import Excerpt.Proofs.Text.Pieces
import Mathlib.Data.List.Forall2

/-!
# Excerpt — lines that were moved to the left

Normalization keeps the lines of a text from the first to the last one that is not blank, and moves each of them to the
left as far as its indentation allows. The lines of what it gives are just these, so it finds them again where it is
done once more.

* **`Text.map_text_lines_intercalate`** — the lines of what is joined from lines.
* **`Fragment.map_text_lines_normalizeIndentation`**, **`Fragment.keptLines_normalizeIndentation`** — the lines of what
  normalization gives, all of which are kept.
* **`Fragment.normalizeIndentation_normalizeIndentation`** — moving twice is moving once by the sum.
* **`Fragment.normalizeIndentation_moves`** — which lines are kept, and how each of them is moved.
-/

namespace Excerpt

namespace Text

theorem text_ofTerminated {s : Text} (h : EndsBare s) : (Line.ofTerminated s).text = s := by
  unfold Line.ofTerminated
  split
  · next hreturn => exact absurd hreturn h
  · rfl

/-- **The lines of what is joined from lines** are these again, where the last one is not empty. -/
theorem map_text_lines_intercalate {ls : List Text} (hfree : ∀ l ∈ ls, '\n' ∉ l) (hbare : ∀ l ∈ ls, EndsBare l)
    (hlast : ∀ l ∈ ls.getLast?, l ≠ []) : (lines (['\n'].intercalate ls)).map Line.text = ls := by
  rcases List.eq_nil_or_concat ls with rfl | ⟨init, last, rfl⟩
  · rfl
  · rw [List.concat_eq_append] at hfree hbare hlast ⊢
    rw [List.forall_mem_append, List.forall_mem_singleton] at hfree hbare
    have hne : last ≠ [] := hlast last List.getLast?_concat
    have hinit : (init.map Line.ofTerminated).map Line.text = init := by
      rw [List.map_map]
      exact (List.map_congr_left fun l hl => text_ofTerminated (hbare.1 l hl)).trans (List.map_id init)
    rw [intercalate_concat, lines_flatMap_append hfree.1, lines_of_notMem hfree.2, if_neg hne, List.map_append, hinit]
    rfl

end Text

namespace Fragment

/-! ## One line -/

/-- How far the line is indented: the number of spaces and tabs at its start. -/
def indentation (l : Text) : Nat := (l.takeWhile isIndent).length

theorem stripIndent_parts (indent : Nat) (l : Text) :
    (stripIndent indent l).takeWhile isIndent = (l.takeWhile isIndent).drop indent ∧
      (stripIndent indent l).dropWhile isIndent = Text.dropEndWhile (· = '\r') (l.dropWhile isIndent) := by
  have hindent : ∀ c ∈ (l.takeWhile isIndent).drop indent, isIndent c = true :=
    fun c hc => List.mem_takeWhile_imp (List.mem_of_mem_drop hc)
  -- what is left of the text of the line begins as the text did, if it is not all gone
  have hfirst : ∀ c ∈ (Text.dropEndWhile (· = '\r') (l.dropWhile isIndent)).head?, isIndent c = false := by
    intro c hc
    obtain ⟨tail, htail, -⟩ := Text.exists_dropEndWhile (· = '\r') (l.dropWhile isIndent)
    have hhead := List.head?_dropWhile_not isIndent l
    rw [htail, List.head?_append, hc, Option.some_or] at hhead
    simpa using hhead
  rw [stripIndent_eq, List.takeWhile_append_of_pos hindent, List.dropWhile_append_of_pos hindent]
  cases hrest : Text.dropEndWhile (· = '\r') (l.dropWhile isIndent) with
  | nil => exact ⟨List.append_nil _, rfl⟩
  | cons c rest =>
    rw [hrest] at hfirst
    have hc : ¬ isIndent c = true := by
      rw [hfirst c rfl]
      decide
    rw [List.takeWhile_cons_of_neg hc, List.dropWhile_cons_of_neg hc, List.append_nil]
    exact ⟨rfl, rfl⟩

theorem indentation_stripIndent (indent : Nat) (l : Text) :
    indentation (stripIndent indent l) = indentation l - indent := by
  rw [indentation, (stripIndent_parts indent l).1, List.length_drop, indentation]

/-- **Moving a line twice is moving it once by the sum.** -/
theorem stripIndent_stripIndent (i j : Nat) (l : Text) : stripIndent j (stripIndent i l) = stripIndent (i + j) l := by
  obtain ⟨htake, hdrop⟩ := stripIndent_parts i l
  rw [stripIndent_eq j, htake, hdrop, List.drop_drop, Text.dropEndWhile_dropEndWhile, stripIndent_eq]

/-- The line `m` is the line `l` moved to the left by `indent` columns, as far as its own indentation allows: it has lost
spaces and tabs at its start, and carriage returns at its end. -/
structure IsMovedLeft (indent : Nat) (l m : Text) : Prop where
  parts : ∃ front back, l = front ++ (m ++ back) ∧ (∀ c ∈ front, isIndent c = true) ∧ ∀ c ∈ back, c = '\r'
  moved : indentation m = indentation l - indent

theorem isMovedLeft_stripIndent (indent : Nat) (l : Text) : IsMovedLeft indent l (stripIndent indent l) where
  parts := by
    obtain ⟨back, hback, hreturns⟩ := Text.exists_dropEndWhile (· = '\r') (l.dropWhile isIndent)
    refine ⟨(l.takeWhile isIndent).take indent, back, ?_, ?_, fun c hc => of_decide_eq_true (hreturns c hc)⟩
    · calc l = l.takeWhile isIndent ++ l.dropWhile isIndent := (List.takeWhile_append_dropWhile).symm
        _ = (l.takeWhile isIndent).take indent ++ ((l.takeWhile isIndent).drop indent ++ l.dropWhile isIndent) := by
          rw [← List.append_assoc, List.take_append_drop]
        _ = (l.takeWhile isIndent).take indent ++ (stripIndent indent l ++ back) := by
          rw [stripIndent_eq, List.append_assoc, ← hback]
    · exact fun c hc => List.mem_takeWhile_imp (List.mem_of_mem_take hc)
  moved := indentation_stripIndent indent l

/-- Lines that are indented far enough keep their distance from each other. -/
theorem IsMovedLeft.sub_eq_sub {indent : Nat} {l m l' m' : Text} (h : IsMovedLeft indent l m)
    (h' : IsMovedLeft indent l' m') (hl : indent ≤ indentation l) (hl' : indent ≤ indentation l') :
    (indentation m : Int) - indentation m' = indentation l - indentation l' := by
  have hm := h.moved
  have hm' := h'.moved
  omega

/-! ## All lines -/

theorem dropBlankEdges_eq_self {ls : List Text} (hfirst : ∀ l ∈ ls.head?, Text.isBlank l = false)
    (hlast : ∀ l ∈ ls.getLast?, Text.isBlank l = false) : dropBlankEdges ls = ls := by
  by_cases hls : ls = []
  · rw [hls]
    rfl
  · have hedges := dropBlankEdges_append (a := []) (b := []) (by simp) hfirst hlast (by simp) hls
    rwa [List.nil_append, List.append_nil] at hedges

theorem isBlank_of_mem_head?_moved {s m : Text} {indent : Nat}
    (h : m ∈ ((keptLines s).map (stripIndent indent)).head?) : Text.isBlank m = false := by
  rw [List.head?_map] at h
  obtain ⟨l, hl, rfl⟩ := Option.map_eq_some_iff.mp h
  rw [isBlank_stripIndent]
  exact isBlank_of_mem_head?_dropBlankEdges hl

theorem isBlank_of_mem_getLast?_moved {s m : Text} {indent : Nat}
    (h : m ∈ ((keptLines s).map (stripIndent indent)).getLast?) : Text.isBlank m = false := by
  rw [List.getLast?_map] at h
  obtain ⟨l, hl, rfl⟩ := Option.map_eq_some_iff.mp h
  rw [isBlank_stripIndent]
  exact isBlank_of_mem_getLast?_dropBlankEdges hl

/-- **The lines of what normalization gives** are the lines that are kept, moved to the left. -/
theorem map_text_lines_normalizeIndentation (s : Text) (indent : Nat) :
    (Text.lines (normalizeIndentation s indent)).map Line.text = (keptLines s).map (stripIndent indent) := by
  rw [normalizeIndentation_def]
  apply Text.map_text_lines_intercalate
  · intro m hm
    obtain ⟨l, hl, rfl⟩ := List.mem_map.mp hm
    exact notMem_stripIndent (notMem_of_mem_keptLines hl) indent
  · intro m hm
    obtain ⟨l, -, rfl⟩ := List.mem_map.mp hm
    exact endsBare_stripIndent indent l
  · rintro m hm rfl
    exact Bool.noConfusion (isBlank_of_mem_getLast?_moved hm)

/-- All of them are kept when it is done again. -/
theorem keptLines_normalizeIndentation (s : Text) (indent : Nat) :
    keptLines (normalizeIndentation s indent) = (keptLines s).map (stripIndent indent) := by
  rw [keptLines, map_text_lines_normalizeIndentation]
  exact dropBlankEdges_eq_self (fun _ hm => isBlank_of_mem_head?_moved hm) fun _ hm => isBlank_of_mem_getLast?_moved hm

/-- **Moving the lines twice is moving them once by the sum;** so what normalization gives stays as it is where it is
moved no further. -/
theorem normalizeIndentation_normalizeIndentation (s : Text) (i : Nat) :
    (∀ j, normalizeIndentation (normalizeIndentation s i) j = normalizeIndentation s (i + j)) ∧
      normalizeIndentation (normalizeIndentation s i) 0 = normalizeIndentation s i := by
  have hsum : ∀ j, normalizeIndentation (normalizeIndentation s i) j = normalizeIndentation s (i + j) := by
    intro j
    rw [normalizeIndentation_def (normalizeIndentation s i), keptLines_normalizeIndentation, List.map_map,
      normalizeIndentation_def]
    congr 1
    exact List.map_congr_left fun l _ => stripIndent_stripIndent i j l
  exact ⟨hsum, hsum 0⟩

example : normalizeIndentation (normalizeIndentation " \r\n\t  a\r\n \r\n  b\r".toList 2) 3 = "a\n\nb".toList := by
  decide +kernel

/-- The lines that are kept: all from the first one that is not blank to the last one. -/
theorem exists_keptLines (s : Text) :
    ∃ before behind, (Text.lines s).map Line.text = before ++ (keptLines s ++ behind) ∧
      ∀ l ∈ before ++ behind, Text.isBlank l = true := by
  obtain ⟨before, behind, hparts, hbefore, hbehind⟩ := exists_dropBlankEdges ((Text.lines s).map Line.text)
  exact ⟨before, behind, hparts, List.forall_mem_append.mpr ⟨hbefore, hbehind⟩⟩

/-- **What normalization does to a text.** Nothing that is visible is lost or added, and nothing is left just where
nothing is visible. The lines of what it gives are those from the first line that is not blank to the last one, one
for each: every line is moved to the left by the indent as far as its own indentation allows, so lines with that
much indentation keep their distance from each other. -/
theorem normalizeIndentation_moves (s : Text) (indent : Nat) :
    Text.visible (normalizeIndentation s indent) = Text.visible s ∧
    (normalizeIndentation s indent = [] ↔ Text.isBlank s = true) ∧
    ∃ before kept behind, (Text.lines s).map Line.text = before ++ (kept ++ behind) ∧
      (∀ l ∈ before ++ behind, Text.isBlank l = true) ∧ (∀ l ∈ kept.head?, Text.isBlank l = false) ∧
      (∀ l ∈ kept.getLast?, Text.isBlank l = false) ∧
      let moved := (Text.lines (normalizeIndentation s indent)).map Line.text
      List.Forall₂ (IsMovedLeft indent) kept moved ∧
      ∀ p ∈ kept.zip moved, ∀ q ∈ kept.zip moved, indent ≤ indentation p.1 → indent ≤ indentation q.1 →
        (indentation p.2 : Int) - indentation q.2 = indentation p.1 - indentation q.1 := by
  obtain ⟨before, behind, hparts, hblank⟩ := exists_keptLines s
  have hmoved : List.Forall₂ (IsMovedLeft indent) (keptLines s)
      ((Text.lines (normalizeIndentation s indent)).map Line.text) := by
    rw [map_text_lines_normalizeIndentation, List.forall₂_map_right_iff]
    exact List.forall₂_same.mpr fun l _ => isMovedLeft_stripIndent indent l
  refine ⟨visible_normalizeIndentation s indent, normalizeIndentation_eq_nil_iff s indent, before, keptLines s, behind,
    hparts, hblank, fun l hl => isBlank_of_mem_head?_dropBlankEdges hl,
    fun l hl => isBlank_of_mem_getLast?_dropBlankEdges hl, hmoved, ?_⟩
  intro p hp q hq hindent hindent'
  have hfirst : IsMovedLeft indent p.1 p.2 := (List.forall₂_iff_zip.mp hmoved).2 hp
  have hsecond : IsMovedLeft indent q.1 q.2 := (List.forall₂_iff_zip.mp hmoved).2 hq
  exact hfirst.sub_eq_sub hsecond hindent hindent'

end Fragment

end Excerpt
