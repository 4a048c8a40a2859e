import Excerpt.Proofs.Source.LineTable
import Excerpt.Proofs.Text.Lines
import Excerpt.Source.Locate
import Mathlib.Data.List.TakeWhile

/-!
# Excerpt — the lines of an excerpt

The lines of an excerpt are those of the first and of the last character in it that is not white space.
Counting line feeds tells which they are.

* **`Text.exists_eq_append_of_not_isBlank`** — the last character that is not white space.
* **`SourceFile.lineRange_of_isBlank`**, **`SourceFile.lineRange_of_not_isBlank`** — the lines of a range of
  the text.
-/

namespace Excerpt

namespace Text

theorem width_sub_width_trimStart (s : Text) :
    width s - width (trimStart s) = width (s.takeWhile isWhiteSpace) := by
  have hwidth : width (s.takeWhile isWhiteSpace) + width (trimStart s) = width s := by
    rw [trimStart, ← width_append, List.takeWhile_append_dropWhile]
  omega

theorem trimEnd_of_isBlank {s : Text} (h : isBlank s = true) : trimEnd s = [] :=
  dropEndWhile_append_of_pos (isBlank_iff.mp h) []

/-- White space at the end of a text is trimmed. -/
theorem trimEnd_append {d : Char} (hd : isWhiteSpace d = false) {tail : Text}
    (htail : isBlank tail = true) (s : Text) : trimEnd (s ++ d :: tail) = s ++ [d] := by
  have hlast : ∀ c ∈ (s ++ [d]).getLast?, isWhiteSpace c = false := by
    intro c hc
    rw [List.getLast?_concat] at hc
    rwa [← Option.some.inj hc]
  rw [trimEnd, List.append_cons, dropEndWhile_append_of_pos (isBlank_iff.mp htail), dropEndWhile_eq_self hlast]

/-- **A text that is not blank has a last character that is no white space.** -/
theorem exists_eq_append_of_not_isBlank {s : Text} (h : isBlank s = false) :
    ∃ front d tail, s = front ++ d :: tail ∧ isWhiteSpace d = false ∧ isBlank tail = true := by
  obtain ⟨tail, htail, hblank⟩ := exists_dropEndWhile isWhiteSpace s
  rw [← isBlank_iff] at hblank
  cases hlast : (dropEndWhile isWhiteSpace s).getLast? with
  | none =>
    -- nothing is left, and all of the text is blank
    rw [List.getLast?_eq_none_iff] at hlast
    rw [hlast, List.nil_append] at htail
    rw [htail, hblank] at h
    cases h
  | some d =>
    obtain ⟨front, hfront⟩ := List.getLast?_eq_some_iff.mp hlast
    refine ⟨front, d, tail, ?_, getLast?_dropEndWhile hlast, hblank⟩
    rw [List.append_cons, ← hfront]
    exact htail

end Text

namespace SourceFile

variable {file : SourceFile} {p s q : Text}

/-- A range of white space alone has the line on which it starts. -/
theorem lineRange_of_isBlank (hlayout : file.layout = Layout.ofText (p ++ (s ++ q)))
    (h : Text.isBlank s = true) :
    file.lineRange ⟨Text.width p, Text.width p + Text.width s⟩ =
      ⟨p.count '\n', p.count '\n'⟩ := by
  unfold lineRange Span.slice
  rw [hlayout]
  dsimp only [Layout.ofText]
  rw [Text.slice_append, Text.trimEnd_of_isBlank h, Text.width_nil,
    if_pos (Nat.zero_le _), LineTable.lineOf_width]

/-- **The lines of a range**: as many line feeds as stand before its first character that is not white
space, and before its last one. -/
theorem lineRange_of_not_isBlank (hlayout : file.layout = Layout.ofText (p ++ (s ++ q)))
    (h : Text.isBlank s = false) :
    file.lineRange ⟨Text.width p, Text.width p + Text.width s⟩ =
      ⟨(p ++ s.takeWhile isWhiteSpace).count '\n', (p ++ Text.trimEnd s).count '\n'⟩ := by
  obtain ⟨front, d, tail, hs, hd, htail⟩ := Text.exists_eq_append_of_not_isBlank h
  have htrim : Text.trimEnd s = front ++ [d] := by rw [hs, Text.trimEnd_append hd htail]
  have hpos := d.utf8Size_pos
  have hlead : s.takeWhile isWhiteSpace = front.takeWhile isWhiteSpace := by
    rw [hs, Text.takeWhile_append_stop hd]
  have hle : Text.width (s.takeWhile isWhiteSpace) ≤ Text.width front := by
    have hwidth : Text.width (front.takeWhile isWhiteSpace ++ front.dropWhile isWhiteSpace) =
        Text.width front := by rw [List.takeWhile_append_dropWhile]
    rw [Text.width_append] at hwidth
    rw [hlead]
    omega
  have htrailing : Text.width (Text.trimEnd s) = Text.width front + d.utf8Size := by
    rw [htrim, Text.width_append, Text.width_cons, Text.width_nil, Nat.add_zero]
  unfold lineRange Span.slice
  rw [hlayout]
  dsimp only [Layout.ofText]
  rw [Text.slice_append, Text.width_sub_width_trimStart, if_neg (by omega)]
  congr 1
  · have htext : p ++ (s ++ q) = p ++ s.takeWhile isWhiteSpace ++ (s.dropWhile isWhiteSpace ++ q) := by
      rw [List.append_assoc, ← List.append_assoc (s.takeWhile isWhiteSpace),
        List.takeWhile_append_dropWhile]
    rw [← Text.width_append, htext, LineTable.lineOf_width]
  · -- the last character is no line feed
    have htext : p ++ (s ++ q) = p ++ (Text.trimEnd s ++ (tail ++ q)) := by
      rw [htrim, hs]
      simp only [List.append_assoc, List.cons_append, List.nil_append]
    have hfeed : d ≠ '\n' := by
      rintro rfl
      exact absurd hd (by decide)
    have hcount : (p ++ (front ++ [d])).count '\n' = (p ++ front).count '\n' := by
      rw [← List.append_assoc, List.count_append, List.count_cons_of_ne hfeed]
      rfl
    rw [htext, LineTable.lineOf_last (by rw [htrim]; simp), htrim, List.dropLast_concat, hcount]

end SourceFile

end Excerpt
