import Excerpt.Fragment
import Excerpt.Proofs.Text.Lines
import Mathlib.Data.List.TakeWhile

/-!
# Excerpt — indentation put on and taken off

The content of an excerpt is what its lines are without the indentation that they have in the source. Lines
that were indented before they were written are found again as they were.

* **`Fragment.dropBlankEdges_append`** — what is left between blank lines.
* **`Fragment.normalizeIndentation_indented`** — indentation that was put on is taken off.
-/

namespace Excerpt

namespace Text

/-! ## Lines -/

theorem lines_flatMap_written_append {a : List Line} (ha : ∀ l ∈ a, l.IsProper ∧ l.IsEnded)
    (s : Text) : lines (a.flatMap Line.written ++ s) = a ++ lines s := by
  induction a with
  | nil => rfl
  | cons l a ih =>
    obtain ⟨⟨hl, hend⟩, ha⟩ := List.forall_mem_cons.mp ha
    rw [List.flatMap_cons, List.append_assoc, lines_written_append hl hend, ih ha]
    rfl

theorem isBlank_of_mem_lines {s : Text} (hs : isBlank s = true) {l : Line} (hl : l ∈ lines s) :
    isBlank l.text = true := by
  have hwritten := flatMap_written_lines s
  rw [isBlank, List.all_eq_true] at hs ⊢
  intro c hc
  refine hs c ?_
  rw [← hwritten]
  exact List.mem_flatMap.mpr ⟨l, hl, List.mem_append_left _ hc⟩

end Text

namespace Fragment

/-! ## Blank lines -/

theorem dropWhile_isBlank_append {a ls : List Text} (ha : ∀ l ∈ a, Text.isBlank l = true)
    (hfirst : ∀ l ∈ ls.head?, Text.isBlank l = false) :
    (a ++ ls).dropWhile Text.isBlank = ls := by
  rw [List.dropWhile_append_of_pos ha]
  cases ls with
  | nil => rfl
  | cons l ls => exact List.dropWhile_cons_of_neg (by rw [hfirst l rfl]; decide)

/-- **What is left between blank lines.** -/
theorem dropBlankEdges_append {a ls b : List Text} (ha : ∀ l ∈ a, Text.isBlank l = true)
    (hfirst : ∀ l ∈ ls.head?, Text.isBlank l = false)
    (hlast : ∀ l ∈ ls.getLast?, Text.isBlank l = false) (hb : ∀ l ∈ b, Text.isBlank l = true)
    (hls : ls ≠ []) : dropBlankEdges (a ++ (ls ++ b)) = ls := by
  have hfront : ∀ l ∈ (ls ++ b).head?, Text.isBlank l = false := by
    obtain ⟨l, rest, rfl⟩ := List.exists_cons_of_ne_nil hls
    exact hfirst
  unfold dropBlankEdges
  rw [dropWhile_isBlank_append ha hfront, List.reverse_append, dropWhile_isBlank_append,
    List.reverse_reverse]
  · intro l hl
    exact hb l (List.mem_reverse.mp hl)
  · rwa [List.head?_reverse]

/-- The lines are the kept ones between blank ones. -/
theorem exists_dropBlankEdges (ls : List Text) :
    ∃ a b, ls = a ++ (dropBlankEdges ls ++ b) ∧ (∀ l ∈ a, Text.isBlank l = true) ∧
      ∀ l ∈ b, Text.isBlank l = true := by
  refine ⟨ls.takeWhile Text.isBlank, ((ls.dropWhile Text.isBlank).reverse.takeWhile Text.isBlank).reverse, ?_,
    fun l hl => List.mem_takeWhile_imp hl, fun l hl => List.mem_takeWhile_imp (List.mem_reverse.mp hl)⟩
  rw [dropBlankEdges, ← List.reverse_append, List.takeWhile_append_dropWhile, List.reverse_reverse,
    List.takeWhile_append_dropWhile]

theorem mem_of_mem_dropBlankEdges {ls : List Text} {l : Text} (h : l ∈ dropBlankEdges ls) : l ∈ ls := by
  obtain ⟨a, b, heq, -, -⟩ := exists_dropBlankEdges ls
  rw [heq]
  exact List.mem_append_right _ (List.mem_append_left _ h)

/-- What is kept neither begins nor ends with a blank line. -/
theorem isBlank_of_mem_head?_dropBlankEdges {ls : List Text} {l : Text} (h : l ∈ (dropBlankEdges ls).head?) :
    Text.isBlank l = false := by
  have hprefix : dropBlankEdges ls <+: ls.dropWhile Text.isBlank :=
    List.reverse_suffix.mp (by rw [dropBlankEdges, List.reverse_reverse]; exact List.dropWhile_suffix _)
  have hhead : (ls.dropWhile Text.isBlank).head? = some l := by
    obtain ⟨rest, hrest⟩ := hprefix
    rw [← hrest, List.head?_append, h, Option.some_or]
  have hnot := List.head?_dropWhile_not Text.isBlank ls
  rw [hhead] at hnot
  simpa using hnot

theorem isBlank_of_mem_getLast?_dropBlankEdges {ls : List Text} {l : Text} (h : l ∈ (dropBlankEdges ls).getLast?) :
    Text.isBlank l = false := by
  rw [dropBlankEdges, List.getLast?_reverse] at h
  have hnot := List.head?_dropWhile_not Text.isBlank (ls.dropWhile Text.isBlank).reverse
  rw [h] at hnot
  simpa using hnot

/-! ## Carriage returns -/

/-- A carriage return at the end of a line is taken away with the indentation. -/
theorem stripIndent_append_return (indent : Nat) (l : Text) :
    stripIndent indent (l ++ ['\r']) = stripIndent indent l := by
  have hle : min indent (l.takeWhile isIndent).length ≤ l.length :=
    Nat.le_trans (Nat.min_le_right _ _) (List.takeWhile_prefix _).length_le
  unfold stripIndent
  dsimp only
  rw [Text.takeWhile_append_stop (by decide), List.drop_append_of_le_length hle]
  simp [Text.dropEndWhile]

/-! ## Indented lines -/

/-- The line behind `k` spaces. -/
def indented (k : Nat) (l : Text) : Text := List.replicate k ' ' ++ l

theorem isBlank_indented (k : Nat) (l : Text) : Text.isBlank (indented k l) = Text.isBlank l := by
  unfold indented Text.isBlank
  rw [List.all_append, List.all_replicate, show isWhiteSpace ' ' = true from by decide]
  simp

theorem getLast?_indented_ne {l : Text} {c : Char} (hl : l.getLast? ≠ some c) (hc : c ≠ ' ')
    (k : Nat) : (indented k l).getLast? ≠ some c := by
  unfold indented
  rw [List.getLast?_append]
  cases hlast : l.getLast? with
  | some d => rwa [hlast] at hl
  | none =>
    rw [Option.none_or, List.getLast?_replicate]
    split
    · simp
    · exact fun heq => hc (Option.some.inj heq).symm

/-- **A line that was indented is found again.** -/
theorem stripIndent_indented {l : Text} (hl : l.getLast? ≠ some '\r') (k : Nat) :
    stripIndent k (indented k l) = l := by
  have htaken : (indented k l).takeWhile isIndent = List.replicate k ' ' ++ l.takeWhile isIndent := by
    refine List.takeWhile_append_of_pos ?_
    intro c hc
    rw [List.eq_of_mem_replicate hc]
    decide
  unfold stripIndent
  dsimp only
  rw [htaken, List.length_append, List.length_replicate, Nat.min_eq_left (Nat.le_add_right _ _)]
  have hdrop : (indented k l).drop k = l := by
    have hleft : (List.replicate k ' ' ++ l).drop (List.replicate k ' ').length = l :=
      List.drop_left
    rwa [List.length_replicate] at hleft
  have hlast : ∀ c ∈ l.getLast?, decide (c = '\r') = false := by
    intro c hc
    exact decide_eq_false fun heq => hl (heq ▸ hc)
  rw [hdrop, Text.dropEndWhile_eq_self hlast]

/-- The lines of indented lines between the rest of a line and the indentation of the next one. -/
theorem lines_indented {ls : List Text} (hfeed : ∀ l ∈ ls, '\n' ∉ l)
    (hreturn : ∀ l ∈ ls, l.getLast? ≠ some '\r') (k : Nat) (s : Text) :
    (Text.lines ('\n' :: ((ls.map (indented k)).flatMap (· ++ ['\n']) ++ s))).map Line.text =
      [[]] ++ (ls.map (indented k) ++ (Text.lines s).map Line.text) := by
  have hproper : ∀ l ∈ ⟨[], .lf⟩ :: ls.map (fun l => Line.mk (indented k l) .lf),
      l.IsProper ∧ l.IsEnded := by
    intro l hl
    rcases List.mem_cons.mp hl with rfl | hmem
    · exact ⟨⟨by simp, by simp⟩, by simp [Line.IsEnded]⟩
    · obtain ⟨m, hm, rfl⟩ := List.mem_map.mp hmem
      refine ⟨⟨?_, fun _ => getLast?_indented_ne (hreturn m hm) (by decide) k⟩, by simp [Line.IsEnded]⟩
      simp [indented, hfeed m hm]
  have hwritten : '\n' :: (ls.map (indented k)).flatMap (· ++ ['\n']) =
      (⟨[], .lf⟩ :: ls.map (fun l => Line.mk (indented k l) .lf)).flatMap Line.written := by
    rw [List.flatMap_cons, List.flatMap_map, List.flatMap_map]
    rfl
  rw [← List.cons_append, hwritten, Text.lines_flatMap_written_append hproper, List.map_append,
    List.map_cons, List.map_map]
  rfl

/-- **Indentation that was put on is taken off:** the text begins behind the line before the indented
ones, and ends before what stands on the line behind them. -/
theorem normalizeIndentation_indented {ls : List Text} (hls : ls ≠ [])
    (hfeed : ∀ l ∈ ls, '\n' ∉ l) (hreturn : ∀ l ∈ ls, l.getLast? ≠ some '\r')
    (hfirst : ∀ l ∈ ls.head?, Text.isBlank l = false)
    (hlast : ∀ l ∈ ls.getLast?, Text.isBlank l = false) (k : Nat) :
    normalizeIndentation ('\n' :: ((ls.map (indented k)).flatMap (· ++ ['\n']) ++
      List.replicate k ' ')) k = ['\n'].intercalate ls := by
  have hedges : dropBlankEdges ([[]] ++ (ls.map (indented k) ++
      (Text.lines (List.replicate k ' ')).map Line.text)) = ls.map (indented k) := by
    refine dropBlankEdges_append (by simp [Text.isBlank]) ?_ ?_ ?_ (by simpa using hls)
    · rw [List.head?_map]
      rintro l hl
      obtain ⟨m, hm, rfl⟩ := Option.map_eq_some_iff.mp hl
      rw [isBlank_indented]
      exact hfirst m hm
    · rw [List.getLast?_map]
      rintro l hl
      obtain ⟨m, hm, rfl⟩ := Option.map_eq_some_iff.mp hl
      rw [isBlank_indented]
      exact hlast m hm
    · intro l hl
      obtain ⟨m, hm, rfl⟩ := List.mem_map.mp hl
      refine Text.isBlank_of_mem_lines ?_ hm
      rw [Text.isBlank, List.all_replicate]
      simp [show isWhiteSpace ' ' = true from by decide]
  have hstripped : (ls.map (indented k)).map (stripIndent k) = ls := by
    rw [List.map_map]
    refine (List.map_congr_left fun l hl => ?_).trans (List.map_id ls)
    exact stripIndent_indented (hreturn l hl) k
  unfold normalizeIndentation
  dsimp only
  rw [lines_indented hfeed hreturn, hedges, hstripped]

end Fragment

end Excerpt
