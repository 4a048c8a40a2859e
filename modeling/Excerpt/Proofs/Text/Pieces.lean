import Excerpt.Proofs.Text.Stripping

/-!
# Excerpt — the pieces of a text between its line feeds

What is rendered is put together from parts, with a line feed between each two of them. Cut at its line feeds it falls
into the pieces of the parts, and with a line feed behind it the pieces are its lines. So what must hold of every line
that is rendered is a matter of each part by itself.

* **`Text.AllPieces`** — a property that every piece of a text has.
* **`Text.allPieces_append_lineFeed`** — the pieces of two texts with a line feed between them.
* **`Text.lines_append_lineFeed`** — the lines of a text with a line feed behind it are its pieces.
* **`Text.forall_mem_lines_withTerminator_iff`** — when every line of a text gets the terminator that its line feeds
  are written as, and nothing of a terminator is left in front of it.
* **`Fragment.allPieces_normalizeIndentation`** — the pieces of an excerpt are lines of its source.
-/

namespace Excerpt

namespace Text

/-- Every piece of the text between its line feeds has the property. -/
def AllPieces (P : Text → Prop) (s : Text) : Prop := ∀ piece ∈ s.splitOn '\n', P piece

/-- The text does not end in a carriage return. -/
def EndsBare (s : Text) : Prop := s.getLast? ≠ some '\r'

instance (s : Text) : Decidable (EndsBare s) := inferInstanceAs (Decidable (s.getLast? ≠ some '\r'))

section

variable {P : Text → Prop}

theorem allPieces_append_lineFeed {s t : Text} :
    AllPieces P (s ++ '\n' :: t) ↔ AllPieces P s ∧ AllPieces P t := by
  unfold AllPieces
  rw [List.splitOn_append_cons_self, List.forall_mem_append]

theorem allPieces_of_notMem {s : Text} (hs : '\n' ∉ s) : AllPieces P s ↔ P s := by
  unfold AllPieces
  rw [List.splitOn_eq_singleton hs, List.forall_mem_singleton]

theorem allPieces_intercalate {ls : List Text} (hne : ls ≠ []) (hfree : ∀ l ∈ ls, '\n' ∉ l) :
    AllPieces P (['\n'].intercalate ls) ↔ ∀ l ∈ ls, P l := by
  unfold AllPieces
  rw [List.splitOn_intercalate '\n' hfree hne]

/-- Without a line feed a text is put in front of the first piece. -/
theorem allPieces_append {a s : Text} (ha : '\n' ∉ a) :
    AllPieces P (a ++ s) ↔
      (∀ first ∈ (s.splitOn '\n').head?, P (a ++ first)) ∧ ∀ piece ∈ (s.splitOn '\n').tail, P piece := by
  obtain ⟨first, rest, hpieces⟩ := List.exists_cons_of_ne_nil (List.splitOn_ne_nil '\n' s)
  have hsplit : (a ++ s).splitOn '\n' = (a ++ first) :: rest := by
    induction a with
    | nil => exact hpieces
    | cons c a ih =>
      obtain ⟨hc, ha⟩ : ¬ '\n' = c ∧ '\n' ∉ a := by simpa using ha
      rw [List.cons_append, List.splitOn_cons_eq_if_modifyHead, if_neg (by simpa using Ne.symm hc), ih ha]
      rfl
  rw [AllPieces, hsplit, hpieces]
  simp

theorem AllPieces.congr {Q : Text → Prop} (h : ∀ piece, P piece ↔ Q piece) (s : Text) :
    AllPieces P s ↔ AllPieces Q s :=
  forall₂_congr fun piece _ => h piece

end

/-! ## Pieces and lines -/

theorem lines_flatMap_append {ls : List Text} (hfree : ∀ l ∈ ls, '\n' ∉ l) (rest : Text) :
    lines (ls.flatMap (· ++ ['\n']) ++ rest) = ls.map Line.ofTerminated ++ lines rest := by
  have hwritten : ls.flatMap (· ++ ['\n']) = (ls.map Line.ofTerminated).flatMap Line.written := by
    rw [List.flatMap_map]
    exact congrArg (List.flatMap · ls) (funext fun l => (Line.written_ofTerminated l).symm)
  rw [hwritten]
  apply lines_flatMap_written_append
  intro l hl
  obtain ⟨s, hs, rfl⟩ := List.mem_map.mp hl
  exact ⟨Line.isProper_ofTerminated (hfree s hs), Line.isEnded_ofTerminated s⟩

/-- The pieces of a text make it up: each is ended by a line feed but the last. -/
theorem exists_splitOn (s : Text) :
    ∃ init last, s.splitOn '\n' = init ++ [last] ∧ s = init.flatMap (· ++ ['\n']) ++ last ∧
      (∀ l ∈ init, '\n' ∉ l) ∧ '\n' ∉ last := by
  obtain ⟨init, last, hpieces⟩ : ∃ init last, s.splitOn '\n' = init ++ [last] := by
    have hne := List.splitOn_ne_nil '\n' s
    exact ⟨_, _, (List.dropLast_concat_getLast hne).symm⟩
  have hfree : ∀ l ∈ init ++ [last], '\n' ∉ l := by
    rw [← hpieces]
    exact fun l hl => not_mem_of_mem_splitOn hl
  refine ⟨init, last, hpieces, ?_, fun l hl => hfree l (List.mem_append_left _ hl),
    hfree last (List.mem_append_right _ (List.mem_singleton_self last))⟩
  have hjoined : ['\n'].intercalate (s.splitOn '\n') = s := List.intercalate_splitOn '\n'
  rw [hpieces, intercalate_concat] at hjoined
  exact hjoined.symm

/-- **The lines of a text with a line feed behind it are its pieces.** -/
theorem lines_append_lineFeed (s : Text) : lines (s ++ ['\n']) = (s.splitOn '\n').map Line.ofTerminated := by
  obtain ⟨init, last, hpieces, hs, hfree, hlast⟩ := exists_splitOn s
  have hwhole : s ++ ['\n'] = (init ++ [last]).flatMap (· ++ ['\n']) ++ [] := by
    rw [hs, List.flatMap_append, List.flatMap_singleton, List.append_nil, List.append_assoc]
  rw [hwhole, hpieces, lines_flatMap_append (List.forall_mem_append.mpr ⟨hfree, List.forall_mem_singleton.mpr hlast⟩)]
  exact List.append_nil _

theorem forall_mem_lines_append_lineFeed_iff {Q : Line → Prop} {s : Text} :
    (∀ l ∈ lines (s ++ ['\n']), Q l) ↔ AllPieces (fun piece => Q (Line.ofTerminated piece)) s := by
  rw [lines_append_lineFeed, List.forall_mem_map]
  rfl

theorem lines_of_notMem {s : Text} (hs : '\n' ∉ s) : lines s = if s = [] then [] else [⟨s, .none⟩] := by
  unfold lines
  rw [go_of_noLineFeed hs, lines.go]
  simp [List.isEmpty_iff]

theorem trimmed_ofTerminated (s : Text) : (Line.ofTerminated s).trimmed = trim s := by
  unfold Line.ofTerminated
  split
  · next hreturn =>
    -- the carriage return of the terminator is white space
    obtain ⟨front, rfl⟩ := List.getLast?_eq_some_iff.mp hreturn
    rw [List.dropLast_concat, trim_append_of_isBlank (by decide)]
    rfl
  · rfl

/-- What does not heed white space at the ends of a line, and holds of nothing, can be asked of the lines of a text
or of its pieces. -/
theorem allPieces_trim_iff {P : Text → Prop} (hnil : P []) {s : Text} :
    AllPieces (fun piece => P (trim piece)) s ↔ ∀ l ∈ lines s, P l.trimmed := by
  obtain ⟨init, last, hpieces, heq, hfree, hlast⟩ := exists_splitOn s
  have hlines : lines s = init.map Line.ofTerminated ++ lines last := by
    rw [heq]
    exact lines_flatMap_append hfree last
  have hend : P (trim last) ↔ ∀ l ∈ lines last, P l.trimmed := by
    rw [lines_of_notMem hlast]
    split
    · next hnone =>
      rw [hnone]
      exact iff_of_true hnil (by simp)
    · rw [List.forall_mem_singleton]
      rfl
  rw [AllPieces, hpieces, hlines, List.forall_mem_append, List.forall_mem_append, List.forall_mem_singleton, hend,
    List.forall_mem_map]
  simp only [trimmed_ofTerminated]

/-! ## Terminators -/

theorem terminator_ofTerminated_eq_crlf_iff {s : Text} :
    (Line.ofTerminated s).terminator = .crlf ↔ s.getLast? = some '\r' := by
  unfold Line.ofTerminated
  split
  · next hreturn => exact iff_of_true rfl hreturn
  · next hother => exact iff_of_false (by simp) hother

theorem withCarriageReturn_ofTerminated (s : Text) : withCarriageReturn (Line.ofTerminated s) = ⟨s, .crlf⟩ := by
  unfold Line.ofTerminated
  split
  · next hreturn =>
    obtain ⟨front, rfl⟩ := List.getLast?_eq_some_iff.mp hreturn
    simp [withCarriageReturn]
  · rfl

theorem endsBare_ofTerminated_iff {s : Text} :
    ((Line.ofTerminated s).terminator = .lf ∧ EndsBare (Line.ofTerminated s).text) ↔ EndsBare s := by
  unfold Line.ofTerminated EndsBare
  split
  · next hreturn => exact iff_of_false (by simp) (fun hne => hne hreturn)
  · exact and_iff_right rfl

/-- **When every line gets the terminator that line feeds are written as:** where no line had a carriage return in
front of its line feed. -/
theorem forall_mem_lines_withTerminator_iff {t : Terminator} (ht : t ≠ .none) {s : Text} :
    (∀ l ∈ lines (withTerminator t (s ++ ['\n'])), l.terminator = t ∧ EndsBare l.text) ↔ AllPieces EndsBare s := by
  cases t with
  | none => exact absurd rfl ht
  | lf =>
    show (∀ l ∈ lines (s ++ ['\n']), _) ↔ _
    rw [forall_mem_lines_append_lineFeed_iff]
    exact AllPieces.congr (fun piece => endsBare_ofTerminated_iff) s
  | crlf =>
    rw [lines_withTerminator_crlf, List.forall_mem_map, forall_mem_lines_append_lineFeed_iff]
    refine AllPieces.congr (fun piece => ?_) s
    rw [withCarriageReturn_ofTerminated]
    exact and_iff_right rfl


/-- No piece of a text ends in a carriage return where the text does not, and has no line that is ended by a carriage
return and a line feed. -/
theorem allPieces_endsBare_iff {s : Text} (hs : EndsBare s) :
    AllPieces EndsBare s ↔ ∀ l ∈ lines s, l.terminator ≠ .crlf := by
  obtain ⟨init, last, hpieces, heq, hfree, hlastFree⟩ := exists_splitOn s
  have hlast : EndsBare last := by
    intro hreturn
    apply hs
    rw [heq, List.getLast?_append, hreturn, Option.some_or]
  have hlines : lines s = init.map Line.ofTerminated ++ lines last := by
    rw [heq]
    exact lines_flatMap_append hfree last
  rw [AllPieces, hpieces, List.forall_mem_append, List.forall_mem_singleton, and_iff_left hlast, hlines,
    List.forall_mem_append, List.forall_mem_map, and_iff_left]
  · exact forall₂_congr fun l _ => not_congr terminator_ofTerminated_eq_crlf_iff.symm
  · rw [lines_of_notMem hlastFree]
    split <;> simp

end Text

/-! ## Excerpts -/

namespace Fragment

open Text (AllPieces EndsBare)

variable {P : Text → Prop}

/-- **The pieces of an excerpt are the lines that it keeps of its source,** each with its indentation off; an excerpt
of none is one empty piece. -/
theorem allPieces_normalizeIndentation (hnil : P []) (s : Text) (indent : Nat) :
    AllPieces P (normalizeIndentation s indent) ↔ ∀ l ∈ keptLines s, P (stripIndent indent l) := by
  rw [normalizeIndentation_def]
  by_cases hkept : keptLines s = []
  · rw [hkept]
    exact iff_of_true ((Text.allPieces_of_notMem (by simp)).mpr hnil) (by simp)
  · rw [Text.allPieces_intercalate (mt List.map_eq_nil_iff.mp hkept), List.forall_mem_map]
    intro l hl
    obtain ⟨l', hl', rfl⟩ := List.mem_map.mp hl
    exact notMem_stripIndent (notMem_of_mem_keptLines hl') indent

theorem endsBare_stripIndent (indent : Nat) (l : Text) : EndsBare (stripIndent indent l) := by
  intro hlast
  have hstays := Text.getLast?_dropEndWhile hlast
  exact absurd hstays (by decide)

/-- **No line of an excerpt from a source file ends in a carriage return.** -/
theorem allPieces_endsBare_normalizeIndentation (s : Text) (indent : Nat) :
    AllPieces EndsBare (normalizeIndentation s indent) :=
  (allPieces_normalizeIndentation (by simp [EndsBare]) s indent).mpr fun l _ => endsBare_stripIndent indent l

/-- What is taken off a line is white space. -/
theorem trim_stripIndent (indent : Nat) (l : Text) : Text.trim (stripIndent indent l) = Text.trim l := by
  obtain ⟨tail, htail, hreturns⟩ := Text.exists_dropEndWhile (· = '\r')
    (l.drop (min indent (l.takeWhile isIndent).length))
  have hfront : Text.isBlank (l.take (min indent (l.takeWhile isIndent).length)) = true := by
    apply Text.isBlank_iff.mpr
    intro c hc
    have htake : l.take (min indent (l.takeWhile isIndent).length) <+: l.takeWhile isIndent := by
      apply List.prefix_of_prefix_length_le (List.take_prefix _ l) (List.takeWhile_prefix isIndent)
      rw [List.length_take]
      omega
    exact isWhiteSpace_of_isIndent (List.mem_takeWhile_imp (htake.subset hc))
  have hback : Text.isBlank tail = true := by
    apply Text.isBlank_iff.mpr
    intro c hc
    rw [of_decide_eq_true (hreturns c hc)]
    decide
  have hparts : l = l.take (min indent (l.takeWhile isIndent).length) ++ (stripIndent indent l ++ tail) := by
    show l = _ ++ (Text.dropEndWhile (· = '\r') _ ++ tail)
    rw [← htail, List.take_append_drop]
  have htrim := congrArg Text.trim hparts
  rw [Text.trim_of_isBlank_append hfront, Text.trim_append_of_isBlank hback] at htrim
  exact htrim.symm

/-- The lines that an excerpt does not keep are blank. -/
theorem forall_mem_keptLines_iff (hnil : P []) {s : Text} :
    (∀ l ∈ keptLines s, P (Text.trim l)) ↔ ∀ l ∈ Text.lines s, P l.trimmed := by
  have hblank : ∀ ls : List Text, (∀ l ∈ ls, Text.isBlank l = true) → ∀ l ∈ ls, P (Text.trim l) := by
    intro ls hls l hl
    have htrim := Text.trim_append_of_isBlank (hls l hl) []
    rw [List.nil_append] at htrim
    rw [htrim]
    exact hnil
  obtain ⟨a, b, hparts, ha, hb⟩ := exists_dropBlankEdges ((Text.lines s).map Line.text)
  have hlines : (∀ l ∈ (Text.lines s).map Line.text, P (Text.trim l)) ↔ ∀ l ∈ Text.lines s, P l.trimmed :=
    List.forall_mem_map
  rw [← hlines, hparts, List.forall_mem_append, List.forall_mem_append, and_iff_right (hblank a ha),
    and_iff_left (hblank b hb)]
  rfl

end Fragment

end Excerpt
