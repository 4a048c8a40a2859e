import Excerpt.Fragment
import Excerpt.Proofs.Source.Offsets
import Excerpt.Proofs.Text.Indentation
import Mathlib.Data.List.TakeWhile

/-!
# Excerpt — texts without their carriage returns

A carriage return in front of a line feed ends the line as the line feed alone does. This module compares a
text in which carriage returns stand nowhere else with the text that is left when they are taken away: where
an offset comes to stand, what a slice becomes, and that the content of an excerpt stays what it is.

* **`Text.bare`** — the text without its carriage returns.
* **`Text.ReturnsEndLines`** — carriage returns stand in front of line feeds only.
* **`Text.bareOffset`** — where an offset comes to stand; **`Text.bareOffset_lt`** — what keeps offsets apart.
* **`Fragment.normalizeIndentation_bare`** — the lines of an excerpt are the same without them.
-/

namespace Excerpt

namespace Text

/-- The text without its carriage returns. -/
def bare (s : Text) : Text := s.filter (· ≠ '\r')

@[simp] theorem bare_nil : bare [] = [] := rfl

@[simp] theorem bare_return (s : Text) : bare ('\r' :: s) = bare s := rfl

theorem bare_cons {c : Char} (hc : c ≠ '\r') (s : Text) : bare (c :: s) = c :: bare s :=
  List.filter_cons_of_pos (by simpa using hc)

@[simp] theorem bare_append (s t : Text) : bare (s ++ t) = bare s ++ bare t := List.filter_append s t

theorem bare_of_notMem {s : Text} (h : '\r' ∉ s) : bare s = s := by
  refine List.filter_eq_self.mpr fun c hc => ?_
  simp only [decide_eq_true_eq]
  rintro rfl
  exact h hc

theorem notMem_bare (s : Text) : '\r' ∉ bare s := by
  intro h
  simpa using (List.mem_filter.mp h).2

theorem mem_of_mem_bare {s : Text} {c : Char} (h : c ∈ bare s) : c ∈ s := (List.mem_filter.mp h).1

theorem count_bare (s : Text) : (bare s).count '\n' = s.count '\n' := by
  refine List.count_filter ?_
  decide

/-! ## White space at the ends -/

section Trim

variable {p : Char → Bool} (hp : p '\r' = true)

include hp

theorem takeWhile_bare (s : Text) : (bare s).takeWhile p = bare (s.takeWhile p) := by
  induction s with
  | nil => rfl
  | cons c s ih =>
    by_cases hc : c = '\r'
    · rw [hc, bare_return, ih, List.takeWhile_cons_of_pos hp, bare_return]
    · rw [bare_cons hc]
      by_cases hpc : p c = true
      · rw [List.takeWhile_cons_of_pos hpc, List.takeWhile_cons_of_pos hpc, bare_cons hc, ih]
      · rw [List.takeWhile_cons_of_neg hpc, List.takeWhile_cons_of_neg hpc, bare_nil]

theorem dropWhile_bare (s : Text) : (bare s).dropWhile p = bare (s.dropWhile p) := by
  have hparts := congrArg bare (List.takeWhile_append_dropWhile (p := p) (l := s))
  rw [bare_append, ← takeWhile_bare hp] at hparts
  have hbare := List.takeWhile_append_dropWhile (p := p) (l := bare s)
  exact List.append_cancel_left (hbare.trans hparts.symm)

theorem dropEndWhile_bare (s : Text) : dropEndWhile p (bare s) = bare (dropEndWhile p s) := by
  have hreverse : ∀ t : Text, (bare t).reverse = bare t.reverse := fun t => List.filter_reverse.symm
  rw [dropEndWhile, dropEndWhile, hreverse, dropWhile_bare hp, hreverse]

end Trim

theorem isBlank_bare (s : Text) : isBlank (bare s) = isBlank s := by
  induction s with
  | nil => rfl
  | cons c s ih =>
    by_cases hc : c = '\r'
    · rw [hc, bare_return, ih]
      rfl
    · rw [bare_cons hc, isBlank, List.all_cons, ← isBlank, ih]
      rfl

/-! ## Where carriage returns stand -/

/-- A carriage return stands in front of a line feed only. -/
def ReturnsEndLines (s : Text) : Prop := ∀ a b : Text, s = a ++ '\r' :: b → b.head? = some '\n'

/-- The same of a part of such a text, which may end between the two. -/
def ReturnsEnd (s : Text) : Prop := ∀ a b : Text, s = a ++ '\r' :: b → b = [] ∨ b.head? = some '\n'

namespace ReturnsEndLines

variable {s t : Text}

theorem of_append (h : ReturnsEndLines (s ++ t)) : ReturnsEndLines t := by
  rintro a b rfl
  exact h (s ++ a) b (by simp)

theorem tail {c : Char} (h : ReturnsEndLines (c :: s)) : ReturnsEndLines s := of_append (s := [c]) h

theorem drop (h : ReturnsEndLines s) (n : Nat) : ReturnsEndLines (s.drop n) := by
  rw [← List.take_append_drop n s] at h
  exact h.of_append

theorem exists_cons (h : ReturnsEndLines ('\r' :: s)) : ∃ rest, s = '\n' :: rest :=
  List.head?_eq_some_iff.mp (h [] s rfl)

theorem of_infix (h : ReturnsEndLines s) (hpart : t <:+: s) : ReturnsEnd t := by
  rintro a b rfl
  obtain ⟨front, back, rfl⟩ := hpart
  cases b with
  | nil => exact Or.inl rfl
  | cons c b =>
    have hfeed := h (front ++ a) (c :: b ++ back) (by simp)
    exact Or.inr hfeed

/-- What is first in the text without carriage returns, and no line feed, is first in the text. -/
theorem exists_of_bare_eq_cons (h : ReturnsEndLines s) {c : Char} (hc : c ≠ '\n')
    (heq : bare s = c :: t) : ∃ rest, s = c :: rest ∧ bare rest = t := by
  cases s with
  | nil => cases heq
  | cons d s =>
    by_cases hd : d = '\r'
    · subst hd
      obtain ⟨rest, rfl⟩ := h.exists_cons
      rw [bare_return, bare_cons (by decide)] at heq
      exact absurd (List.cons.inj heq).1.symm hc
    · rw [bare_cons hd] at heq
      obtain ⟨rfl, hrest⟩ := List.cons.inj heq
      exact ⟨s, rfl, hrest⟩

end ReturnsEndLines

theorem ReturnsEnd.notMem_dropLast {s : Text} (h : ReturnsEnd s) (hfeed : '\n' ∉ s) :
    '\r' ∉ s.dropLast := by
  intro hmem
  obtain ⟨a, b, heq⟩ := List.append_of_mem hmem
  have hne : s ≠ [] := by
    rintro rfl
    cases hmem
  have hs : s = a ++ '\r' :: (b ++ [s.getLast hne]) := by
    have hlast := List.dropLast_concat_getLast hne
    rw [heq] at hlast
    simpa using hlast.symm
  rcases h a _ hs with hnil | hhead
  · simp at hnil
  · refine hfeed ?_
    rw [hs]
    exact List.mem_append_right _ (List.mem_cons_of_mem _ (List.mem_of_mem_head? hhead))

/-- A part on one line has at most one carriage return, at its end. -/
theorem ReturnsEnd.eq_bare_or {s : Text} (h : ReturnsEnd s) (hfeed : '\n' ∉ s) :
    s = bare s ∨ s = bare s ++ ['\r'] := by
  rcases List.eq_nil_or_concat s with rfl | ⟨front, c, rfl⟩
  · exact Or.inl rfl
  · rw [List.concat_eq_append] at h hfeed ⊢
    have hfront := h.notMem_dropLast hfeed
    rw [List.dropLast_concat] at hfront
    by_cases hc : c = '\r'
    · subst hc
      refine Or.inr ?_
      rw [bare_append, bare_of_notMem hfront]
      simp
    · refine Or.inl ?_
      rw [bare_append, bare_of_notMem hfront, bare_cons hc, bare_nil]

/-! ## Line feeds written as a carriage return and a line feed -/

theorem withTerminator_crlf_cons (c : Char) (s : Text) :
    withTerminator .crlf (c :: s) =
      (if c = '\n' then ['\r', '\n'] else [c]) ++ withTerminator .crlf s := rfl

theorem bare_withTerminator_crlf {s : Text} (h : '\r' ∉ s) : bare (withTerminator .crlf s) = s := by
  induction s with
  | nil => rfl
  | cons c s ih =>
    obtain ⟨hc, hs⟩ : ¬ '\r' = c ∧ '\r' ∉ s := by simpa using h
    rw [withTerminator_crlf_cons, bare_append, ih hs]
    split
    · next hfeed => rw [hfeed]; rfl
    · rw [bare_cons (Ne.symm hc)]
      rfl

theorem returnsEndLines_withTerminator_crlf {s : Text} (h : '\r' ∉ s) :
    ReturnsEndLines (withTerminator .crlf s) := by
  induction s with
  | nil =>
    intro a b heq
    exact absurd heq (by simp [withTerminator])
  | cons c s ih =>
    obtain ⟨hc, hs⟩ : ¬ '\r' = c ∧ '\r' ∉ s := by simpa using h
    intro a b heq
    rw [withTerminator_crlf_cons] at heq
    split at heq
    · rcases a with _ | ⟨d, _ | ⟨e, a⟩⟩
      · obtain ⟨-, rfl⟩ := List.cons.inj heq
        rfl
      · obtain ⟨-, heq⟩ := List.cons.inj heq
        exact absurd (List.cons.inj heq).1 (by decide)
      · exact ih hs a b (List.cons.inj (List.cons.inj heq).2).2
    · cases a with
      | nil => exact absurd (List.cons.inj heq).1.symm hc
      | cons d a => exact ih hs a b (List.cons.inj heq).2

/-! ## Offsets -/

/-- Where the offset comes to stand when the carriage returns are taken away. -/
def bareOffset (s : Text) (n : Nat) : Nat := width (bare (takeBytes n s))

/-- The first bytes of a text are a start of it. -/
theorem exists_takeBytes_append (n : Nat) (s : Text) : takeBytes n s <+: s := by
  fun_induction takeBytes n s with
  | case1 => exact List.nil_prefix
  | case2 => exact List.nil_prefix
  | case3 n c s hle ih => exact List.cons_prefix_cons.mpr ⟨rfl, ih⟩
  | case4 n c s hle => exact List.nil_prefix

theorem bareOffset_width (p q : Text) : bareOffset (p ++ q) (width p) = width (bare p) := by
  rw [bareOffset, takeBytes_width_append]

theorem bareOffset_length (s : Text) : bareOffset s (width s) = width (bare s) := by
  have hwidth := bareOffset_width s []
  rwa [List.append_nil] at hwidth

theorem takeBytes_bareOffset (s : Text) (n : Nat) :
    takeBytes (bareOffset s n) (bare s) = bare (takeBytes n s) := by
  obtain ⟨q, hq⟩ := exists_takeBytes_append n s
  have htaken := takeBytes_width_append (bare (takeBytes n s)) (bare q)
  rw [← bare_append, hq] at htaken
  exact htaken

/-- The end of a slice, where its start comes to stand at the end of `bare p`. -/
theorem bareOffset_add (p t q : Text) :
    bareOffset (p ++ (t ++ q)) (width p + width t) = width (bare p) + width (bare t) := by
  rw [← width_append, ← List.append_assoc, bareOffset_width, bare_append, width_append]

theorem bareOffset_mono {s : Text} {m n : Nat} (hm : IsOffset s m) (hn : IsOffset s n) (hle : m ≤ n) :
    bareOffset s m ≤ bareOffset s n := by
  obtain ⟨p, ⟨q, rfl⟩, rfl⟩ := hm
  obtain ⟨t, r, rfl, rfl⟩ := hn.exists_append hle
  rw [bareOffset_width, bareOffset_add]
  exact Nat.le_add_right _ _

/-- Offsets are not brought together across a character that is left. -/
theorem bareOffset_lt {p q : Text} {c : Char} (hc : c ≠ '\r') {n : Nat}
    (hn : IsOffset (p ++ c :: q) n) (hlt : width p < n) :
    bareOffset (p ++ c :: q) (width p) < bareOffset (p ++ c :: q) n := by
  have hpos := c.utf8Size_pos
  obtain ⟨t, r, hq, rfl⟩ := hn.exists_append (Nat.le_of_lt hlt)
  cases t with
  | nil => exact absurd hlt (Nat.lt_irrefl _)
  | cons d t =>
    obtain ⟨rfl, -⟩ := List.cons.inj hq
    rw [hq, bareOffset_width, bareOffset_add, bare_cons hc, width_cons]
    omega

/-! ## Lines -/

theorem text_ofTerminated_bare (s : Text) :
    (Line.ofTerminated (bare s)).text = bare (Line.ofTerminated s).text := by
  have hbare : (Line.ofTerminated (bare s)).text = bare s := by
    unfold Line.ofTerminated
    split
    · next hlast => exact absurd (List.mem_of_getLast? hlast) (notMem_bare s)
    · rfl
  rw [hbare]
  unfold Line.ofTerminated
  split
  · next hlast =>
    obtain ⟨front, rfl⟩ := List.getLast?_eq_some_iff.mp hlast
    simp
  · rfl

/-- The lines of the text without carriage returns are those of the text, but for an empty one at the end.
Induction along the text. -/
theorem map_text_go_bare (current s : Text) :
    ∃ b : List Text, ((lines.go current s).map Line.text).map bare =
        (lines.go (bare current) (bare s)).map Line.text ++ b ∧ ∀ l ∈ b, isBlank l = true := by
  have hreverse : ∀ t : Text, bare t.reverse = (bare t).reverse := fun t => List.filter_reverse
  induction s generalizing current with
  | nil =>
    unfold lines.go
    by_cases hcurrent : current = []
    · subst hcurrent
      exact ⟨[], rfl, by simp⟩
    · by_cases hbare : bare current = []
      · refine ⟨[[]], ?_, by simp [isBlank]⟩
        simp [hcurrent, hbare, hreverse]
      · refine ⟨[], ?_, by simp⟩
        simp [hcurrent, hbare, hreverse]
  | cons c s ih =>
    by_cases hreturn : c = '\r'
    · obtain ⟨b, hlines, hb⟩ := ih (c :: current)
      refine ⟨b, ?_, hb⟩
      rw [lines.go, if_neg (by rw [hreturn]; decide), hlines, hreturn, bare_return, bare_return]
    · rw [bare_cons hreturn]
      unfold lines.go
      split
      · obtain ⟨b, hlines, hb⟩ := ih []
        refine ⟨b, ?_, hb⟩
        rw [List.map_cons, List.map_cons, List.map_cons, hlines, ← hreverse, text_ofTerminated_bare]
        rfl
      · obtain ⟨b, hlines, hb⟩ := ih (c :: current)
        refine ⟨b, ?_, hb⟩
        rw [hlines, bare_cons hreturn]

theorem map_text_lines_bare (s : Text) :
    ∃ b : List Text, ((lines s).map Line.text).map bare = (lines (bare s)).map Line.text ++ b ∧
      ∀ l ∈ b, isBlank l = true :=
  map_text_go_bare [] s

/-- A line of a text is a part of it. -/
theorem infix_of_mem_lines {s : Text} {l : Line} (h : l ∈ lines s) : l.text <:+: s := by
  obtain ⟨a, b, heq⟩ := List.append_of_mem h
  have hs := flatMap_written_lines s
  rw [heq, List.flatMap_append, List.flatMap_cons] at hs
  refine ⟨a.flatMap Line.written, l.terminator.text ++ b.flatMap Line.written, ?_⟩
  rw [← hs, Line.written]
  simp only [List.append_assoc]

theorem ReturnsEnd.of_infix {s t : Text} (h : ReturnsEnd s) (hpart : t <:+: s) : ReturnsEnd t := by
  rintro a b rfl
  obtain ⟨front, back, rfl⟩ := hpart
  cases b with
  | nil => exact Or.inl rfl
  | cons c b =>
    rcases h (front ++ a) (c :: b ++ back) (by simp) with hnil | hfeed
    · cases hnil
    · exact Or.inr hfeed

end Text

namespace Fragment

open Text (bare isBlank_bare)

theorem dropBlankEdges_of_blank_end {b : List Text} (hb : ∀ l ∈ b, Text.isBlank l = true)
    (ls : List Text) : dropBlankEdges (ls ++ b) = dropBlankEdges ls := by
  have hblank : ∀ l ∈ b.reverse, Text.isBlank l = true := fun l hl => hb l (List.mem_reverse.mp hl)
  unfold dropBlankEdges
  rw [List.dropWhile_append]
  split
  · next hnil =>
    rw [List.isEmpty_iff.mp hnil, List.dropWhile_eq_nil_iff.mpr hb]
  · rw [List.reverse_append, List.dropWhile_append_of_pos hblank]

theorem dropBlankEdges_map_bare (ls : List Text) :
    dropBlankEdges (ls.map bare) = (dropBlankEdges ls).map bare := by
  have hdrop : ∀ ls : List Text,
      (ls.map bare).dropWhile Text.isBlank = (ls.dropWhile Text.isBlank).map bare := by
    intro ls
    rw [List.dropWhile_map]
    congr 2
    funext l
    exact isBlank_bare l
  unfold dropBlankEdges
  rw [hdrop, ← List.map_reverse, hdrop, ← List.map_reverse]

theorem stripIndent_bare {l : Text} (h : l = bare l ∨ l = bare l ++ ['\r']) (indent : Nat) :
    stripIndent indent (bare l) = stripIndent indent l := by
  rcases h with heq | heq
  · rw [← heq]
  · generalize bare l = m at heq ⊢
    rw [heq, stripIndent_append_return]

/-- **The lines of an excerpt are the same without carriage returns.** -/
theorem normalizeIndentation_bare {s : Text} (h : Text.ReturnsEnd s) (indent : Nat) :
    normalizeIndentation (bare s) indent = normalizeIndentation s indent := by
  obtain ⟨b, hlines, hb⟩ := Text.map_text_lines_bare s
  have hedges : dropBlankEdges ((Text.lines (bare s)).map Line.text) =
      (dropBlankEdges ((Text.lines s).map Line.text)).map bare := by
    rw [← dropBlankEdges_map_bare, hlines, dropBlankEdges_of_blank_end hb]
  unfold normalizeIndentation
  dsimp only
  rw [hedges, List.map_map]
  congr 1
  refine List.map_congr_left fun l hl => ?_
  obtain ⟨line, hline, rfl⟩ := List.mem_map.mp (mem_of_mem_dropBlankEdges hl)
  have hfeed := ((Text.isLines_lines s).isProper hline).noLineFeed
  exact stripIndent_bare ((h.of_infix (Text.infix_of_mem_lines hline)).eq_bare_or hfeed) indent

end Fragment

end Excerpt
