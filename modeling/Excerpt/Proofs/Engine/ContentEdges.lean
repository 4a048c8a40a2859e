import Excerpt.Proofs.Engine.Answer
import Excerpt.Proofs.Text.Normalized

/-!
# Excerpt — the edges of an excerpt

An excerpt from a source file neither begins nor ends with a blank line. A report is trimmed in another way: only line
ends are taken off its end, and nothing off its start where the description of the environment is kept. So blank lines
of a report come to stand at the edges of an excerpt.

* **`Text.HasFullEdges`** — a text is empty, or neither its first nor its last line is blank.
* **`Text.IsFramed`**, **`Text.hasFullEdges_dropEndWhile_iff`** — which texts have full edges when line ends are taken
  off their end.
* **`Extractor.extract_edges`** — when an excerpt has full edges: always from a source file, and from a report just
  where the part that is kept of it is framed.
-/

namespace Excerpt

namespace Text

/-- The text is empty, or neither its first nor its last line is blank. -/
def HasFullEdges (s : Text) : Prop :=
  s = [] ∨ ∃ first last, (lines s).head? = some first ∧ (lines s).getLast? = some last ∧
    isBlank first.text = false ∧ isBlank last.text = false

/-- No line of the text before its first line with something on it is blank, and no line behind the last one holds
anything but carriage returns. -/
def IsFramed (s : Text) : Prop :=
  ∃ framed bare, lines s = framed ++ bare ∧ (∀ l ∈ framed.head?, isBlank l.text = false) ∧
    (∀ l ∈ framed.getLast?, isBlank l.text = false) ∧ ∀ l ∈ bare, ∀ c ∈ l.text, c = '\r'

/-- Whether the character is one of those that end lines. -/
def isLineEnd (c : Char) : Bool := c = '\r' || c = '\n'

theorem isWhiteSpace_of_isLineEnd {c : Char} (h : isLineEnd c = true) : isWhiteSpace c = true := by
  simp only [isLineEnd, Bool.or_eq_true, decide_eq_true_eq] at h
  rcases h with rfl | rfl <;> decide

theorem lines_ne_nil {s : Text} (h : s ≠ []) : lines s ≠ [] := by
  intro hnil
  have hwritten := flatMap_written_lines s
  rw [hnil] at hwritten
  exact h hwritten.symm

theorem hasFullEdges_iff {s : Text} :
    HasFullEdges s ↔
      (∀ l ∈ (lines s).head?, isBlank l.text = false) ∧ ∀ l ∈ (lines s).getLast?, isBlank l.text = false := by
  constructor
  · rintro (rfl | ⟨first, last, hfirst, hlast, hfirstFull, hlastFull⟩)
    · exact ⟨by simp [lines, lines.go], by simp [lines, lines.go]⟩
    · rw [hfirst, hlast]
      exact ⟨fun l hl => Option.some.inj hl ▸ hfirstFull, fun l hl => Option.some.inj hl ▸ hlastFull⟩
  · rintro ⟨hfirst, hlast⟩
    by_cases hs : s = []
    · exact Or.inl hs
    · have hne := lines_ne_nil hs
      exact Or.inr ⟨_, _, List.head?_eq_some_head hne, List.getLast?_eq_some_getLast hne,
        hfirst _ (List.head?_eq_some_head hne), hlast _ (List.getLast?_eq_some_getLast hne)⟩

/-! ## Line ends at the end of a text -/

theorem isBlank_text_ofTerminated (s : Text) : isBlank (Line.ofTerminated s).text = isBlank s := by
  have hwritten := visible_written (Line.ofTerminated s)
  rw [Line.written_ofTerminated, visible_append, show visible ['\n'] = [] from rfl, List.append_nil] at hwritten
  rw [Bool.eq_iff_iff, ← visible_eq_nil_iff, ← visible_eq_nil_iff, hwritten]

/-- Lines of line ends alone hold carriage returns at most. -/
theorem forall_mem_lines_of_isLineEnd {s : Text} (h : ∀ c ∈ s, isLineEnd c = true) :
    ∀ l ∈ lines s, ∀ c ∈ l.text, c = '\r' := by
  intro l hl c hc
  have hmem : c ∈ s := by
    rw [← flatMap_written_lines s]
    exact List.mem_flatMap.mpr ⟨l, hl, List.mem_append_left _ hc⟩
  have hend := h c hmem
  simp only [isLineEnd, Bool.or_eq_true, decide_eq_true_eq] at hend
  refine hend.resolve_right ?_
  rintro rfl
  exact ((isLines_lines s).isProper hl).noLineFeed hc

theorem isLineEnd_of_mem_terminator {t : Terminator} {c : Char} (h : c ∈ t.text) : isLineEnd c = true := by
  cases t <;> simp [Terminator.text] at h <;> rcases h with rfl | rfl <;> decide

/-- Lines of carriage returns are made of line ends. -/
theorem isLineEnd_of_mem_written {ls : List Line} (h : ∀ l ∈ ls, ∀ c ∈ l.text, c = '\r') :
    ∀ c ∈ ls.flatMap Line.written, isLineEnd c = true := by
  intro c hc
  obtain ⟨l, hl, hmem⟩ := List.mem_flatMap.mp hc
  rcases List.mem_append.mp hmem with htext | hterminator
  · rw [h l hl c htext]
    decide
  · exact isLineEnd_of_mem_terminator hterminator

/-- Line ends behind a line take nothing from it that is visible, and what follows it holds carriage returns alone. -/
theorem exists_lines_append_lineEnds {t x : Text} (ht : '\n' ∉ t) (hne : t ≠ []) (hx : ∀ c ∈ x, isLineEnd c = true) :
    ∃ l bare, lines (t ++ x) = l :: bare ∧ isBlank l.text = isBlank t ∧ ∀ m ∈ bare, ∀ c ∈ m.text, c = '\r' := by
  have hblank : ∀ a : Text, (∀ c ∈ a, isLineEnd c = true) → isBlank (t ++ a) = isBlank t := by
    intro a ha
    have hwhite : isBlank a = true := isBlank_iff.mpr fun c hc => isWhiteSpace_of_isLineEnd (ha c hc)
    rw [isBlank, List.all_append, ← isBlank, ← isBlank, hwhite, Bool.and_true]
  by_cases hfeed : '\n' ∈ x
  · -- the first line feed ends the line
    obtain ⟨a, y, rfl, ha⟩ := List.eq_append_cons_of_mem hfeed
    obtain ⟨hreturns, hbehind⟩ := List.forall_mem_append.mp hx
    have hfree : ∀ l ∈ [t ++ a], '\n' ∉ l := by simp [ht, ha]
    have hlines := lines_flatMap_append hfree y
    rw [List.flatMap_singleton, List.append_assoc, List.append_assoc, List.singleton_append] at hlines
    refine ⟨Line.ofTerminated (t ++ a), lines y, hlines, ?_, ?_⟩
    · rw [isBlank_text_ofTerminated, hblank a hreturns]
    · exact forall_mem_lines_of_isLineEnd fun c hc => hbehind c (List.mem_cons_of_mem _ hc)
  · have hfree : '\n' ∉ t ++ x := by simp [ht, hfeed]
    refine ⟨⟨t ++ x, .none⟩, [], ?_, hblank x hx, by simp⟩
    rw [lines_of_notMem hfree, if_neg (by simp [hne])]

/-- A last line may be another one, if it is blank where the other one is. -/
theorem forall_mem_head?_concat {f : List Line} {l m : Line} (h : isBlank l.text = isBlank m.text) :
    (∀ k ∈ (f ++ [l]).head?, isBlank k.text = false) ↔ ∀ k ∈ (f ++ [m]).head?, isBlank k.text = false := by
  cases f with
  | nil => simp [h]
  | cons k f => simp

theorem isFramed_of_hasFullEdges_dropEndWhile {s : Text} (h : HasFullEdges (dropEndWhile isLineEnd s)) :
    IsFramed s := by
  obtain ⟨x, hs, hx⟩ := exists_dropEndWhile isLineEnd s
  by_cases hnil : dropEndWhile isLineEnd s = []
  · rw [hnil, List.nil_append] at hs
    rw [hs]
    exact ⟨[], lines x, rfl, by simp, by simp, forall_mem_lines_of_isLineEnd hx⟩
  · obtain ⟨hfirst, hlast⟩ := hasFullEdges_iff.mp h
    obtain ⟨init, last, -, hparts, hfree, hlastFree⟩ := exists_splitOn (dropEndWhile isLineEnd s)
    -- the text does not end in a line feed now
    have hne : last ≠ [] := by
      rintro rfl
      rw [List.append_nil] at hparts
      rcases List.eq_nil_or_concat init with rfl | ⟨init, l, rfl⟩
      · exact hnil hparts
      · have hfeed : (dropEndWhile isLineEnd s).getLast? = some '\n' := by
          rw [hparts, List.concat_eq_append, List.flatMap_append, List.flatMap_singleton, ← List.append_assoc,
            List.getLast?_concat]
        exact absurd (getLast?_dropEndWhile hfeed) (by decide)
    have hlines : lines (dropEndWhile isLineEnd s) = init.map Line.ofTerminated ++ [⟨last, .none⟩] := by
      rw [hparts, lines_flatMap_append hfree, lines_of_notMem hlastFree, if_neg hne]
    rw [hlines] at hfirst hlast
    have hfull : isBlank last = false := hlast _ List.getLast?_concat
    obtain ⟨l, bare, hrest, hblank, hbare⟩ := exists_lines_append_lineEnds hlastFree hne hx
    refine ⟨init.map Line.ofTerminated ++ [l], bare, ?_, ?_, ?_, hbare⟩
    · rw [hs, hparts, List.append_assoc, lines_flatMap_append hfree, hrest, List.append_assoc, List.singleton_append]
    · exact (forall_mem_head?_concat hblank).mpr hfirst
    · intro m hm
      rw [List.getLast?_concat] at hm
      rw [← Option.some.inj hm, hblank, hfull]

theorem hasFullEdges_dropEndWhile_of_isFramed {s : Text} (h : IsFramed s) :
    HasFullEdges (dropEndWhile isLineEnd s) := by
  obtain ⟨framed, bare, hlines, hfirst, hlast, hbare⟩ := h
  have hs := flatMap_written_lines s
  rw [hlines, List.flatMap_append] at hs
  rcases List.eq_nil_or_concat framed with rfl | ⟨f, g, rfl⟩
  · -- nothing but line ends is there, and nothing is left
    have hall := dropEndWhile_append_of_pos (isLineEnd_of_mem_written hbare) []
    rw [← hs]
    exact Or.inl hall
  · rw [List.concat_eq_append] at hlines hfirst hlast hs
    have hfull : isBlank g.text = false := hlast g List.getLast?_concat
    have hended : ∀ l ∈ f, l.IsProper ∧ l.IsEnded := by
      have hall := isLines_lines s
      rw [hlines, List.append_assoc] at hall
      exact hall.isProper_isEnded_of_append (by simp)
    have hfeed : '\n' ∉ g.text := ((isLines_lines s).isProper (by rw [hlines]; simp)).noLineFeed
    have hvisible : visible (dropEndWhile isLineEnd g.text) = visible g.text :=
      visible_dropEndWhile (fun _ => isWhiteSpace_of_isLineEnd) g.text
    have hblank : isBlank (dropEndWhile isLineEnd g.text) = isBlank g.text := by
      rw [Bool.eq_iff_iff, ← visible_eq_nil_iff, ← visible_eq_nil_iff, hvisible]
    have hne : dropEndWhile isLineEnd g.text ≠ [] := by
      intro hnil
      rw [hnil, hfull] at hblank
      cases hblank
    have hfree : '\n' ∉ dropEndWhile isLineEnd g.text := by
      obtain ⟨tail, htail, -⟩ := exists_dropEndWhile isLineEnd g.text
      intro hmem
      exact hfeed (htail ▸ List.mem_append_left tail hmem)
    have hends : ∀ c ∈ g.terminator.text ++ bare.flatMap Line.written, isLineEnd c = true :=
      List.forall_mem_append.mpr ⟨fun c hc => isLineEnd_of_mem_terminator hc, isLineEnd_of_mem_written hbare⟩
    have hleft : dropEndWhile isLineEnd s = f.flatMap Line.written ++ dropEndWhile isLineEnd g.text := by
      calc dropEndWhile isLineEnd s
          = dropEndWhile isLineEnd (f.flatMap Line.written ++ g.text ++
              (g.terminator.text ++ bare.flatMap Line.written)) := by
            rw [← hs, List.flatMap_append, List.flatMap_singleton, Line.written]
            simp only [List.append_assoc]
        _ = dropEndWhile isLineEnd (f.flatMap Line.written ++ g.text) := dropEndWhile_append_of_pos hends _
        _ = f.flatMap Line.written ++ dropEndWhile isLineEnd g.text := dropEndWhile_append_of_ne_nil hne _
    rw [hleft, hasFullEdges_iff, lines_flatMap_written_append hended, lines_of_notMem hfree, if_neg hne]
    constructor
    · exact (forall_mem_head?_concat hblank).mpr hfirst
    · intro l hl
      rw [List.getLast?_concat] at hl
      rw [← Option.some.inj hl, hblank, hfull]

/-- **Which texts have full edges when line ends are taken off their end.** -/
theorem hasFullEdges_dropEndWhile_iff (s : Text) : HasFullEdges (dropEndWhile isLineEnd s) ↔ IsFramed s :=
  ⟨isFramed_of_hasFullEdges_dropEndWhile, hasFullEdges_dropEndWhile_of_isFramed⟩

end Text

/-! ## Excerpts -/

/-- **No blank line is at the edges of what normalization gives.** -/
theorem Fragment.hasFullEdges_normalizeIndentation (s : Text) (indent : Nat) :
    (normalizeIndentation s indent).HasFullEdges := by
  have hlines := map_text_lines_normalizeIndentation s indent
  refine Text.hasFullEdges_iff.mpr ⟨fun l hl => ?_, fun l hl => ?_⟩
  · have hmem := Option.mem_map_of_mem Line.text hl
    rw [← List.head?_map, hlines] at hmem
    exact isBlank_of_mem_head?_moved hmem
  · have hmem := Option.mem_map_of_mem Line.text hl
    rw [← List.getLast?_map, hlines] at hmem
    exact isBlank_of_mem_getLast?_moved hmem

namespace Benchmark

/-- The part that is kept of a report: all of it, or what stands behind the description of the environment without the
white space at its start. -/
def kept (includeEnvironment : Bool) (report : Text) : Text :=
  if includeEnvironment then report else Text.trimStart (dropEnvironment report)

theorem content_eq (includeEnvironment : Bool) (report : Text) :
    content includeEnvironment report = Text.dropEndWhile Text.isLineEnd (kept includeEnvironment report) := rfl

end Benchmark

namespace Extractor

/-- **The edges of an excerpt.** Neither the first nor the last line of an excerpt from a source file is blank. Of an
excerpt from a report they are not just where the part that is kept of the report is framed. -/
theorem extract_edges {x : Extractor} {store : Store} {source name : Text} {options : Options} {fragment : Fragment}
    (h : (x.extract store source name options).1 = .ok fragment) :
    (∀ state, x = .sourceFiles state → fragment.content.HasFullEdges) ∧
      ∀ reads, x = .benchmark reads → ∃ includeEnvironment path report,
        options.getBoolean "env".toList false = .ok includeEnvironment ∧
        Benchmark.existingReport store source name = .ok path ∧ store.read path = .ok report ∧
        (fragment.content.HasFullEdges ↔ (Benchmark.kept includeEnvironment report).IsFramed) := by
  constructor
  · rintro state rfl
    obtain ⟨_, file, place, -, -, -, -, rfl⟩ := SourceExtractor.extract_fst_eq_ok_iff.mp h
    exact Fragment.hasFullEdges_normalizeIndentation _ _
  · rintro reads rfl
    obtain ⟨includeEnvironment, path, report, hoption, hpath, hread, rfl⟩ := Benchmark.extract_fst_eq_ok_iff.mp h
    refine ⟨includeEnvironment, path, report, hoption, hpath, hread, ?_⟩
    show (Benchmark.content includeEnvironment report).HasFullEdges ↔ _
    rw [Benchmark.content_eq]
    exact Text.hasFullEdges_dropEndWhile_iff _

/-- Where the report of the benchmark `B` of the project `P` is. -/
def reportPath : Text := "P/bin/Release/net8/BenchmarkDotNet.Artifacts/results/P.B-report-github.md".toList

/-- A store whose only file is the report. -/
def storeOfReport (report : Text) : Store := (MemoryStore.ofList [(reportPath, report)]).toStore

/-- The bare lines at the end of a report leave nothing blank behind its table. -/
theorem extract_edges_bareEnd :
    let store := storeOfReport "```\nE\n```\n\n| A |\r\n\r\n".toList
    ∃ fragment, ((Extractor.benchmark 0).extract store "P".toList "B".toList .empty).1 = .ok fragment ∧
      fragment.content.HasFullEdges := by
  intro store
  have h : ((Extractor.benchmark 0).extract store "P".toList "B".toList .empty).1 =
      .ok ⟨"P".toList, "B".toList, none, "| A |".toList, "markdown".toList⟩ := by
    decide +kernel
  refine ⟨_, h, ?_⟩
  obtain ⟨includeEnvironment, path, report, hoption, hpath, hread, hiff⟩ := (extract_edges h).2 0 rfl
  have hkept : Benchmark.kept includeEnvironment report = "| A |\r\n\r\n".toList := by
    have hstrips : includeEnvironment = false := by
      rw [show Options.getBoolean .empty "env".toList false = .ok false from by decide +kernel] at hoption
      exact (Except.ok.inj hoption).symm
    have hfound : Benchmark.existingReport store "P".toList "B".toList = .ok reportPath := by
      decide +kernel
    have hfile : store.read reportPath = .ok "```\nE\n```\n\n| A |\r\n\r\n".toList := by
      decide +kernel
    obtain rfl := Except.ok.inj (hfound.symm.trans hpath)
    rw [hstrips, ← Except.ok.inj (hfile.symm.trans hread)]
    decide +kernel
  have hfull : ∀ l ∈ some (⟨"| A |".toList, .crlf⟩ : Line), Text.isBlank l.text = false := by
    rintro l ⟨⟩
    decide
  have hbare : ∀ l ∈ [(⟨[], .crlf⟩ : Line)], ∀ c ∈ l.text, c = '\r' := by simp
  refine hiff.mpr ⟨[⟨"| A |".toList, .crlf⟩], [⟨[], .crlf⟩], ?_, hfull, hfull, hbare⟩
  rw [hkept]
  decide +kernel

/-- A line of spaces behind the table of a report stays, and so does an empty line before it where the description of
the environment is kept. -/
theorem extract_blankEdges :
    let store := storeOfReport "\n| A |\n \n".toList
    ∃ stripped whole,
      ((Extractor.benchmark 0).extract store "P".toList "B".toList .empty).1 = .ok stripped ∧
        ((Extractor.benchmark 0).extract store "P".toList "B".toList ⟨[("env".toList, "true".toList)]⟩).1 =
          .ok whole ∧
        stripped.content = "| A |\n ".toList ∧ ¬ stripped.content.HasFullEdges ∧
        whole.content = "\n| A |\n ".toList ∧ ¬ whole.content.HasFullEdges := by
  intro store
  refine ⟨⟨"P".toList, "B".toList, none, "| A |\n ".toList, "markdown".toList⟩,
    ⟨"P".toList, "B".toList, none, "\n| A |\n ".toList, "markdown".toList⟩, ?_, ?_, rfl, ?_, rfl, ?_⟩
  · decide +kernel
  · decide +kernel
  · rw [Text.hasFullEdges_iff]
    decide +kernel
  · rw [Text.hasFullEdges_iff]
    decide +kernel

end Extractor

end Excerpt
