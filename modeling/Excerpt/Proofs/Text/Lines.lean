import Excerpt.Proofs.Text.Trimming
import Excerpt.Text.Lines

/-!
# Excerpt — lines and the texts that they make up

`Text.lines` cuts a text into lines that keep their terminators. This module says which lists of
lines arise in this way, and that cutting and joining are inverse to each other.

* **`IsLines`** — the lists of lines that a text can have: each line is *proper*, which is to say
  that its text cannot be cut further, and each line but the last is terminated.
* **`flatMap_written_lines`** — joining the lines of a text gives the text back.
* **`isLines_lines`**, **`lines_flatMap_written`** — the lines of a text satisfy `IsLines`, and a list
  which does is the list of lines of the text that it makes up.
* **`lines_withTerminator_crlf`** — how the lines change when each line feed is written as a carriage
  return and a line feed: the trimmed texts of the lines stay what they are.
-/

namespace Excerpt

namespace Line

/-- No line feed stands in the line, and a carriage return before its line feed belongs to the
terminator: the line is one line, and has this terminator, when it is read again. -/
structure IsProper (l : Line) : Prop where
  noLineFeed : '\n' ∉ l.text
  ofLineFeed : l.terminator = .lf → l.text.getLast? ≠ some '\r'

/-- The line is terminated. -/
def IsEnded (l : Line) : Prop := l.terminator ≠ .none

theorem written_def (l : Line) : l.written = l.text ++ l.terminator.text := rfl

/-! ## Lines that end in a line feed -/

/-- What stands before the line feed of a terminated line, its carriage return included, is read as
that line. -/
theorem ofTerminated_of_isProper {l : Line} (hl : l.IsProper) {s : Text}
    (hs : l.written = s ++ ['\n']) : ofTerminated s = l := by
  obtain ⟨text, terminator⟩ := l
  rw [written_def] at hs
  cases terminator with
  | none =>
    have hmem : '\n' ∈ text := by
      rw [show text = s ++ ['\n'] from by simpa [Terminator.text] using hs]
      simp
    exact absurd hmem hl.noLineFeed
  | lf =>
    have htext : text = s := by simpa [Terminator.text] using hs
    have hlast : s.getLast? ≠ some '\r' := htext ▸ hl.ofLineFeed rfl
    unfold ofTerminated
    split
    · next h => exact absurd h hlast
    · rw [htext]
  | crlf =>
    -- the carriage return of the terminator is the last character before the line feed
    have htext : s = text ++ ['\r'] := by
      have h : text ++ ['\r'] ++ ['\n'] = s ++ ['\n'] := by simpa [Terminator.text] using hs
      exact (List.append_cancel_right h).symm
    simp [ofTerminated, htext]

theorem written_ofTerminated (s : Text) : (ofTerminated s).written = s ++ ['\n'] := by
  unfold ofTerminated
  split
  · next h =>
    obtain ⟨front, rfl⟩ := List.getLast?_eq_some_iff.mp h
    simp [written, Terminator.text]
  · rfl

theorem isEnded_ofTerminated (s : Text) : (ofTerminated s).IsEnded := by
  unfold ofTerminated IsEnded
  split <;> simp

theorem isProper_ofTerminated {s : Text} (hs : '\n' ∉ s) : (ofTerminated s).IsProper := by
  unfold ofTerminated
  split
  · exact ⟨fun h => hs (List.dropLast_subset s h), by simp⟩
  · next h => exact ⟨hs, fun _ hr => h hr⟩

end Line

/-! ## The lists of lines that texts have -/

/-- The list is that of the lines of a text: only the last line can lack a terminator, and it is not
empty then. -/
inductive IsLines : List Line → Prop where
  | nil : IsLines []
  | last (l : Line) (hl : l.IsProper) (hterm : l.terminator = .none) (hne : l.text ≠ []) :
      IsLines [l]
  | cons (l : Line) (rest : List Line) (hl : l.IsProper) (hend : l.IsEnded) (hrest : IsLines rest) :
      IsLines (l :: rest)

/-- Terminated lines can be put in front. Induction on these lines. -/
theorem IsLines.append {a b : List Line} (ha : ∀ l ∈ a, l.IsProper ∧ l.IsEnded) (hb : IsLines b) :
    IsLines (a ++ b) := by
  induction a with
  | nil => exact hb
  | cons l rest ih =>
    obtain ⟨hl, hend⟩ := ha l List.mem_cons_self
    exact .cons l (rest ++ b) hl hend (ih fun m hm => ha m (List.mem_cons_of_mem l hm))

theorem IsLines.isEnded_of_cons {l : Line} {rest : List Line} (h : IsLines (l :: rest))
    (hne : rest ≠ []) : l.IsEnded := by
  cases h with
  | last => exact absurd rfl hne
  | cons _ _ _ hend _ => exact hend

theorem IsLines.tail {l : Line} {rest : List Line} (h : IsLines (l :: rest)) : IsLines rest := by
  cases h with
  | last => exact .nil
  | cons _ _ _ _ hrest => exact hrest

theorem IsLines.of_append {a b : List Line} (h : IsLines (a ++ b)) : IsLines b := by
  induction a with
  | nil => exact h
  | cons l a ih => exact ih h.tail

theorem IsLines.isProper {l : Line} {ls : List Line} (h : IsLines ls) (hl : l ∈ ls) :
    l.IsProper := by
  induction h with
  | nil => simp at hl
  | last m hm => rwa [List.mem_singleton.mp hl]
  | cons m rest hm _ _ ih =>
    rcases List.mem_cons.mp hl with rfl | hmem
    · exact hm
    · exact ih hmem

/-- All lines but the last one are terminated. -/
theorem IsLines.isProper_isEnded_of_append {a b : List Line} (h : IsLines (a ++ b)) (hb : b ≠ []) :
    ∀ l ∈ a, l.IsProper ∧ l.IsEnded := by
  induction a with
  | nil => exact fun l hl => absurd hl List.not_mem_nil
  | cons l a ih =>
    exact List.forall_mem_cons.mpr
      ⟨⟨h.isProper List.mem_cons_self, h.isEnded_of_cons (by simp [hb])⟩, ih h.tail⟩

namespace Text

/-- The characters taken from the start of a text stop where they do without what is behind. -/
theorem takeWhile_append_stop {p : Char → Bool} {d : Char} (hd : p d = false) (s tail : Text) :
    (s ++ d :: tail).takeWhile p = s.takeWhile p := by
  rw [List.takeWhile_append]
  split
  · next hall =>
    rw [List.takeWhile_cons_of_neg (by rw [hd]; decide), List.append_nil]
    exact ((List.takeWhile_prefix p).eq_of_length hall).symm
  · rfl

/-! ## Cutting, then joining -/

theorem flatMap_written_go (current s : Text) :
    (lines.go current s).flatMap Line.written = current.reverse ++ s := by
  induction s generalizing current with
  | nil =>
    unfold lines.go
    split
    · next h => simp [List.isEmpty_iff.mp h]
    · simp [Line.written, Terminator.text]
  | cons c rest ih =>
    unfold lines.go
    split
    · next h =>
      rw [List.flatMap_cons, ih [], Line.written_ofTerminated, h]
      simp
    · rw [ih (c :: current)]
      simp

/-- **Joining the lines of a text gives the text back.** -/
theorem flatMap_written_lines (s : Text) : (lines s).flatMap Line.written = s := by
  unfold lines
  rw [flatMap_written_go, List.reverse_nil, List.nil_append]

/-- The invariant of cutting: the line read so far holds no line feed. -/
theorem isLines_go {current : Text} (hcur : '\n' ∉ current) (s : Text) :
    IsLines (lines.go current s) := by
  induction s generalizing current with
  | nil =>
    unfold lines.go
    split
    · exact .nil
    · next h =>
      refine .last _ ⟨by simpa using hcur, by simp⟩ rfl ?_
      simpa [List.isEmpty_iff] using h
  | cons c rest ih =>
    unfold lines.go
    split
    · refine .cons _ _ (Line.isProper_ofTerminated (by simpa using hcur)) ?_ (ih (by simp))
      exact Line.isEnded_ofTerminated _
    · next h => exact ih (by simp [Ne.symm h, hcur])

theorem isLines_lines (s : Text) : IsLines (lines s) := isLines_go (by simp) s

/-! ## Joining, then cutting -/

/-- Up to its first line feed a text is added to the line read so far. -/
theorem go_append_lineFeed {s : Text} (hs : '\n' ∉ s) (current rest : Text) :
    lines.go current (s ++ '\n' :: rest) =
      Line.ofTerminated (current.reverse ++ s) :: lines.go [] rest := by
  induction s generalizing current with
  | nil => simp [lines.go]
  | cons c s ih =>
    obtain ⟨hc, hs⟩ : ¬ '\n' = c ∧ '\n' ∉ s := by simpa using hs
    rw [List.cons_append, lines.go, if_neg (Ne.symm hc), ih hs (c :: current)]
    simp

theorem go_of_noLineFeed {s : Text} (hs : '\n' ∉ s) (current : Text) :
    lines.go current s = lines.go (s.reverse ++ current) [] := by
  induction s generalizing current with
  | nil => simp
  | cons c s ih =>
    obtain ⟨hc, hs⟩ : ¬ '\n' = c ∧ '\n' ∉ s := by simpa using hs
    have hstep : lines.go current (c :: s) = lines.go (c :: current) s := by
      rw [lines.go, if_neg (Ne.symm hc)]
    rw [hstep, ih hs (c :: current)]
    simp

/-- What a terminated line is written as ends in a line feed, the only one in it. -/
theorem exists_written_eq_append_lineFeed {l : Line} (hl : l.IsProper) (hend : l.IsEnded) :
    ∃ s, l.written = s ++ ['\n'] ∧ '\n' ∉ s := by
  obtain ⟨text, terminator⟩ := l
  have htext : '\n' ∉ text := hl.noLineFeed
  cases terminator with
  | none => exact absurd rfl hend
  | lf => exact ⟨text, rfl, htext⟩
  | crlf => exact ⟨text ++ ['\r'], by simp [Line.written, Terminator.text], by simp [htext]⟩

theorem lines_written_append {l : Line} (hl : l.IsProper) (hend : l.IsEnded) (rest : Text) :
    lines (l.written ++ rest) = l :: lines rest := by
  obtain ⟨s, hs, hfree⟩ := exists_written_eq_append_lineFeed hl hend
  unfold lines
  rw [hs, List.append_assoc, List.singleton_append, go_append_lineFeed hfree]
  rw [List.reverse_nil, List.nil_append, Line.ofTerminated_of_isProper hl hs]

/-- **A list of lines that satisfies `IsLines` is the list of lines of the text that it makes up.**
Induction on `IsLines`. -/
theorem lines_flatMap_written {ls : List Line} (h : IsLines ls) :
    lines (ls.flatMap Line.written) = ls := by
  induction h with
  | nil => rfl
  | last l hl hterm hne =>
    obtain ⟨text, terminator⟩ := l
    obtain rfl : terminator = .none := hterm
    have hgo := go_of_noLineFeed hl.noLineFeed []
    rw [List.flatMap_singleton, Line.written]
    simp only [Terminator.text, List.append_nil] at hgo ⊢
    unfold lines
    rw [hgo]
    simp [lines.go, hne]
  | cons l rest hl hend hrest ih =>
    rw [List.flatMap_cons, lines_written_append hl hend, ih]

/-! ## Texts that end in a line feed -/

theorem isEnded_of_mem_go {s current : Text} (hs : s.getLast? = some '\n') :
    ∀ l ∈ lines.go current s, l.IsEnded := by
  induction s generalizing current with
  | nil => simp at hs
  | cons c rest ih =>
    unfold lines.go
    -- the last character is the line feed, in the rest unless that is empty
    by_cases hrest : rest = []
    · subst hrest
      have hc : c = '\n' := by simpa using hs
      simp [hc, lines.go, Line.isEnded_ofTerminated]
    · have hlast : rest.getLast? = some '\n' := by
        rwa [List.getLast?_cons_of_ne_nil hrest] at hs
      split
      · intro l hl
        rcases List.mem_cons.mp hl with rfl | hmem
        · exact Line.isEnded_ofTerminated _
        · exact ih hlast l hmem
      · exact ih hlast

theorem isEnded_of_mem_lines {s : Text} (hs : s.getLast? = some '\n') {l : Line}
    (hl : l ∈ lines s) : l.IsEnded :=
  isEnded_of_mem_go hs l hl

/-- The lines of two texts, the first of which is ended. -/
theorem lines_append {a : Text} (ha : a = [] ∨ a.getLast? = some '\n') (b : Text) :
    lines (a ++ b) = lines a ++ lines b := by
  rcases ha with rfl | hlast
  · rfl
  · have hended : ∀ l ∈ lines a, l.IsProper ∧ l.IsEnded :=
      fun l hl => ⟨(isLines_lines a).isProper hl, isEnded_of_mem_lines hlast hl⟩
    have happend := lines_flatMap_written ((isLines_lines b).append hended)
    rwa [List.flatMap_append, flatMap_written_lines, flatMap_written_lines] at happend

/-! ## Line feeds written as a carriage return and a line feed -/

/-- The line as it is read after each line feed has been written as a carriage return and a line
feed: a carriage return that was there before becomes part of its text. -/
def withCarriageReturn (l : Line) : Line :=
  match l.terminator with
  | .none => l
  | .lf => ⟨l.text, .crlf⟩
  | .crlf => ⟨l.text ++ ['\r'], .crlf⟩

theorem isProper_withCarriageReturn {l : Line} (hl : l.IsProper) :
    (withCarriageReturn l).IsProper := by
  obtain ⟨text, terminator⟩ := l
  have htext : '\n' ∉ text := hl.noLineFeed
  cases terminator with
  | none => exact hl
  | lf => exact ⟨htext, by simp [withCarriageReturn]⟩
  | crlf => exact ⟨by simp [withCarriageReturn, htext], by simp [withCarriageReturn]⟩

theorem isEnded_withCarriageReturn {l : Line} (hend : l.IsEnded) :
    (withCarriageReturn l).IsEnded := by
  obtain ⟨text, terminator⟩ := l
  cases terminator with
  | none => exact absurd rfl hend
  | lf => simp [withCarriageReturn, Line.IsEnded]
  | crlf => simp [withCarriageReturn, Line.IsEnded]

theorem trimmed_withCarriageReturn (l : Line) : (withCarriageReturn l).trimmed = l.trimmed := by
  obtain ⟨text, terminator⟩ := l
  cases terminator with
  | none => rfl
  | lf => rfl
  | crlf => exact trim_append_of_isBlank (by decide) text

theorem withTerminator_crlf_append (s t : Text) :
    withTerminator .crlf (s ++ t) = withTerminator .crlf s ++ withTerminator .crlf t := by
  simp [withTerminator]

/-- Without a line feed there is nothing to write differently. -/
theorem withTerminator_of_noLineFeed {s : Text} (hs : '\n' ∉ s) (t : Terminator) :
    withTerminator t s = s := by
  have hflat : ∀ u : Text, s.flatMap (fun c => if c = '\n' then u else [c]) = s := by
    intro u
    induction s with
    | nil => rfl
    | cons c s ih =>
      obtain ⟨hc, hs⟩ : ¬ '\n' = c ∧ '\n' ∉ s := by simpa using hs
      rw [List.flatMap_cons, ih hs, if_neg (Ne.symm hc)]
      rfl
  cases t with
  | none => exact hflat _
  | lf => rfl
  | crlf => exact hflat _

theorem withTerminator_written {l : Line} (hl : l.IsProper) :
    withTerminator .crlf l.written = (withCarriageReturn l).written := by
  obtain ⟨text, terminator⟩ := l
  have htext := withTerminator_of_noLineFeed hl.noLineFeed .crlf
  rw [Line.written_def, withTerminator_crlf_append, htext]
  cases terminator with
  | none => rfl
  | lf => rfl
  | crlf => simp [withTerminator, withCarriageReturn, Line.written, Terminator.text]

theorem withTerminator_flatMap_written {ls : List Line} (h : IsLines ls) :
    withTerminator .crlf (ls.flatMap Line.written) =
      (ls.map withCarriageReturn).flatMap Line.written := by
  induction h with
  | nil => rfl
  | last l hl _ _ => simp [withTerminator_written hl]
  | cons l rest hl _ _ ih =>
    rw [List.flatMap_cons, withTerminator_crlf_append, withTerminator_written hl, ih]
    rfl

theorem isLines_map_withCarriageReturn {ls : List Line} (h : IsLines ls) :
    IsLines (ls.map withCarriageReturn) := by
  induction h with
  | nil => exact .nil
  | last l hl hterm hne =>
    have hsame : withCarriageReturn l = l := by unfold withCarriageReturn; rw [hterm]
    rw [List.map_singleton, hsame]
    exact .last l hl hterm hne
  | cons l rest hl hend _ ih =>
    exact .cons _ _ (isProper_withCarriageReturn hl) (isEnded_withCarriageReturn hend) ih

/-- **The lines of a text whose line feeds are written as a carriage return and a line feed.** -/
theorem lines_withTerminator_crlf (s : Text) :
    lines (withTerminator .crlf s) = (lines s).map withCarriageReturn := by
  have h := isLines_lines s
  have hflat := withTerminator_flatMap_written h
  rw [flatMap_written_lines] at hflat
  rw [hflat, lines_flatMap_written (isLines_map_withCarriageReturn h)]

/-- The trimmed lines of a text are the same whichever terminator its line feeds are written as. -/
theorem map_trimmed_lines_withTerminator {t : Terminator} (ht : t ≠ .none) (s : Text) :
    (lines (withTerminator t s)).map Line.trimmed = (lines s).map Line.trimmed := by
  cases t with
  | none => exact absurd rfl ht
  | lf => rfl
  | crlf =>
    rw [lines_withTerminator_crlf, List.map_map]
    exact List.map_congr_left fun l _ => trimmed_withCarriageReturn l

theorem getLast?_withTerminator {t : Terminator} (ht : t ≠ .none) {s : Text}
    (hs : s.getLast? = some '\n') : (withTerminator t s).getLast? = some '\n' := by
  obtain ⟨front, rfl⟩ := List.getLast?_eq_some_iff.mp hs
  cases t with
  | none => exact absurd rfl ht
  | lf => simp [withTerminator]
  | crlf => simp [withTerminator, Terminator.text]

end Text

end Excerpt
