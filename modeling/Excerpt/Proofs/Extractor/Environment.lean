import Excerpt.Proofs.Engine.ContentEdges
import Excerpt.Proofs.Source.OpaqueLexemes

/-!
# Excerpt — the description of the environment does not show

A benchmark report begins with a block between two fences that describes the machine, which differs from run to run.
Unless the block is asked for, an excerpt is what stands behind it, so reports that differ up to there only give the
same excerpt.

* **`Text.IsTrimmed`**, **`Text.isTrimmed_iff`** — a text without white space at its start and without line ends at its
  end, told by what was taken off.
* **`Text.dropEndWhile_suffix`** — the ends of two texts are alike where one of them is an end of the other.
* **`Benchmark.dropEnvironment_of_hasNoFence`** — what is behind the second fence is found.
* **`Benchmark.extract_environment`** — two reports with one table give one excerpt, and no excerpt holds more without
  the block than with it.
-/

namespace Excerpt

namespace Text

/-- **The second text is the first one without white space at its start and line ends at its end.** -/
structure IsTrimmed (s t : Text) : Prop where
  parts : ∃ lead tail, s = lead ++ (t ++ tail) ∧ isBlank lead = true ∧ ∀ c ∈ tail, isLineEnd c = true
  head : ∀ c ∈ t.head?, isWhiteSpace c = false
  last : ∀ c ∈ t.getLast?, isLineEnd c = false

theorem dropEndWhile_trimStart_of_isTrimmed {s t : Text} (h : IsTrimmed s t) :
    dropEndWhile isLineEnd (trimStart s) = t := by
  obtain ⟨⟨lead, tail, rfl, hlead, htail⟩, hhead, hlast⟩ := h
  rw [trimStart, List.dropWhile_append_of_pos (isBlank_iff.mp hlead)]
  cases t with
  | nil =>
    -- what is left are line ends, which are white space as well
    have hwhite : ∀ c ∈ tail, isWhiteSpace c = true := fun c hc => isWhiteSpace_of_isLineEnd (htail c hc)
    rw [List.nil_append, List.dropWhile_eq_nil_iff.mpr hwhite]
    rfl
  | cons c t =>
    have hc := hhead c rfl
    rw [List.cons_append, List.dropWhile_cons_of_neg (by rw [hc]; decide), ← List.cons_append,
      dropEndWhile_append_of_pos htail, dropEndWhile_eq_self hlast]

theorem isTrimmed_dropEndWhile_trimStart (s : Text) : IsTrimmed s (dropEndWhile isLineEnd (trimStart s)) := by
  obtain ⟨tail, hparts, htail⟩ := exists_dropEndWhile isLineEnd (trimStart s)
  refine ⟨⟨s.takeWhile isWhiteSpace, tail, ?_, ?_, htail⟩, fun c hc => ?_, fun c hc => getLast?_dropEndWhile hc⟩
  · rw [← hparts]
    exact List.takeWhile_append_dropWhile.symm
  · exact isBlank_iff.mpr fun c hc => List.mem_takeWhile_imp hc
  · refine head?_trimStart (s := s) ?_
    rw [hparts, List.head?_append, Option.mem_def.mp hc]
    rfl

/-- **Trimming has one result.** -/
theorem isTrimmed_iff {s t : Text} : IsTrimmed s t ↔ dropEndWhile isLineEnd (trimStart s) = t :=
  ⟨dropEndWhile_trimStart_of_isTrimmed, fun h => h ▸ isTrimmed_dropEndWhile_trimStart s⟩

/-- **The end of a text ends like the text**, also without what is dropped there. -/
theorem dropEndWhile_suffix {p : Char → Bool} {s t : Text} (h : t <:+ s) : dropEndWhile p t <:+ dropEndWhile p s := by
  obtain ⟨front, rfl⟩ := h
  by_cases hnil : dropEndWhile p t = []
  · rw [hnil]
    exact List.nil_suffix
  · rw [dropEndWhile_append_of_ne_nil hnil]
    exact List.suffix_append _ _

end Text

namespace Benchmark

/-! ## Fences in reports -/

/-- No fence is in the text, and none begins at its end. -/
structure HasNoFence (s : Text) : Prop where
  free : ¬ fence <:+: s
  last : s.getLast? ≠ some '`'

/-- Two fences stand in the report, one behind the other. -/
def HasTwoFences (report : Text) : Prop :=
  ∃ before inside behind, report = before ++ (fence ++ (inside ++ (fence ++ behind)))

theorem splitAt?_fence {s : Text} (h : HasNoFence s) (rest : Text) :
    Text.splitAt? fence (s ++ (fence ++ rest)) = some (s, rest) := by
  have hfence : fence = List.replicate 3 '`' := rfl
  have hfree := h.free
  rw [hfence] at hfree
  have hfound : ¬ fence <:+: s ++ List.replicate 2 '`' := Text.not_infix_append_replicate (by decide) h.last hfree
  exact Text.splitAt?_append (by decide) hfound rest

/-- **What is behind the second fence is found**, whatever stands before it. -/
theorem dropEnvironment_of_hasNoFence {before inside : Text} (hbefore : HasNoFence before)
    (hinside : HasNoFence inside) (behind : Text) :
    dropEnvironment (before ++ (fence ++ (inside ++ (fence ++ behind)))) = behind := by
  unfold dropEnvironment
  rw [splitAt?_fence hbefore]
  dsimp only
  rw [splitAt?_fence hinside]

/-- **What is kept of a report** is what stands behind two fences in it, or else all of it. -/
theorem dropEnvironment_cases (report : Text) :
    dropEnvironment report = report ∨
      ∃ before inside, report = before ++ (fence ++ (inside ++ (fence ++ dropEnvironment report))) := by
  unfold dropEnvironment
  cases hfirst : Text.splitAt? fence report with
  | none => exact Or.inl rfl
  | some found =>
    obtain ⟨before, rest⟩ := found
    dsimp only
    cases hsecond : Text.splitAt? fence rest with
    | none => exact Or.inl rfl
    | some found =>
      obtain ⟨inside, behind⟩ := found
      refine Or.inr ⟨before, inside, ?_⟩
      dsimp only
      rw [← Text.append_of_splitAt?_eq_some hsecond, ← Text.append_of_splitAt?_eq_some hfirst]

theorem dropEnvironment_suffix (report : Text) : dropEnvironment report <:+ report := by
  rcases dropEnvironment_cases report with hall | ⟨before, inside, hparts⟩
  · exact ⟨[], hall⟩
  · refine ⟨before ++ (fence ++ (inside ++ fence)), ?_⟩
    simpa only [List.append_assoc] using hparts.symm

theorem dropEnvironment_of_not_hasTwoFences {report : Text} (h : ¬ HasTwoFences report) :
    dropEnvironment report = report :=
  (dropEnvironment_cases report).resolve_right fun ⟨before, inside, hparts⟩ => h ⟨before, inside, _, hparts⟩

/-! ## Excerpts -/

theorem isTrimmed_content (report : Text) : Text.IsTrimmed (dropEnvironment report) (content false report) :=
  Text.isTrimmed_iff.mpr rfl

/-- **Without the environment no excerpt holds more than with it**, and it ends alike. -/
theorem content_suffix (report : Text) : content false report <:+ content true report :=
  Text.dropEndWhile_suffix ((List.dropWhile_suffix _).trans (dropEnvironment_suffix report))

/-- The benchmark class of a project has the report. -/
def HasReport (store : Store) (source name report : Text) : Prop :=
  ∃ path, existingReport store source name = .ok path ∧ store.read path = .ok report

theorem extract_of_hasReport {store : Store} {source name report : Text} (h : HasReport store source name report)
    {options : Options} {includeEnvironment : Bool}
    (hoption : options.getBoolean "env".toList false = .ok includeEnvironment) :
    (extract store source name options).1 =
      .ok ⟨source, name, none, content includeEnvironment report, "markdown".toList⟩ := by
  obtain ⟨path, hpath, hread⟩ := h
  exact extract_fst_eq_ok_iff.mpr ⟨includeEnvironment, path, report, hoption, hpath, hread, rfl⟩

/-- **The description of the environment does not show.** Two reports that have the same behind their second fence give
the same content, which is that without white space at its start and line ends at its end. Of any report the content
without the environment is an end of the one with it, and it is all of the report but its edges where there are no two
fences. -/
theorem extract_environment {store other : Store} {source name otherSource otherName report otherReport : Text}
    (hreport : HasReport store source name report) (hother : HasReport other otherSource otherName otherReport)
    {options otherOptions whole : Options} (hstrips : options.getBoolean "env".toList false = .ok false)
    (hotherStrips : otherOptions.getBoolean "env".toList false = .ok false)
    (hkeeps : whole.getBoolean "env".toList false = .ok true) :
    ∃ stripped otherStripped kept, (extract store source name options).1 = .ok stripped ∧
      (extract other otherSource otherName otherOptions).1 = .ok otherStripped ∧
      (extract store source name whole).1 = .ok kept ∧
      (∀ before inside otherBefore otherInside behind, HasNoFence before → HasNoFence inside →
        HasNoFence otherBefore → HasNoFence otherInside →
        report = before ++ (fence ++ (inside ++ (fence ++ behind))) →
        otherReport = otherBefore ++ (fence ++ (otherInside ++ (fence ++ behind))) →
          stripped.content = otherStripped.content ∧ behind.IsTrimmed stripped.content) ∧
      stripped.content <:+ kept.content ∧
      (¬ HasTwoFences report → report.IsTrimmed stripped.content) := by
  refine ⟨_, _, _, extract_of_hasReport hreport hstrips, extract_of_hasReport hother hotherStrips,
    extract_of_hasReport hreport hkeeps, ?_, content_suffix report, fun hfew => ?_⟩
  · rintro before inside otherBefore otherInside behind hbefore hinside hotherBefore hotherInside rfl rfl
    have htrimmed := isTrimmed_content (before ++ (fence ++ (inside ++ (fence ++ behind))))
    have hotherTrimmed := isTrimmed_content (otherBefore ++ (fence ++ (otherInside ++ (fence ++ behind))))
    rw [dropEnvironment_of_hasNoFence hbefore hinside] at htrimmed
    rw [dropEnvironment_of_hasNoFence hotherBefore hotherInside] at hotherTrimmed
    exact ⟨(Text.isTrimmed_iff.mp htrimmed).symm.trans (Text.isTrimmed_iff.mp hotherTrimmed), htrimmed⟩
  · have htrimmed := isTrimmed_content report
    rwa [dropEnvironment_of_not_hasTwoFences hfew] at htrimmed

/-- A report from a machine. -/
def reportOf (machine : Text) : Text := "# B\n".toList ++ (fence ++ (machine ++ (fence ++ "\n\n| 1 |\r\n".toList)))

/-- Backticks in the description of a machine are no fence. -/
theorem extract_environment_machines :
    let store := fun machine => Extractor.storeOfReport (reportOf machine)
    ∃ stripped otherStripped,
      (extract (store "\nM\n".toList) "P".toList "B".toList .empty).1 = .ok stripped ∧
        (extract (store "`N``\n".toList) "P".toList "B".toList .empty).1 = .ok otherStripped ∧
        stripped.content = otherStripped.content ∧ stripped.content = "| 1 |".toList := by
  intro store
  have hstrips : Options.empty.getBoolean "env".toList false = .ok false := rfl
  have hkeeps : (⟨[("env".toList, "true".toList)]⟩ : Options).getBoolean "env".toList false = .ok true := by
    decide +kernel
  have hreport : HasReport (store "\nM\n".toList) "P".toList "B".toList (reportOf "\nM\n".toList) :=
    ⟨Extractor.reportPath, by decide +kernel, by decide +kernel⟩
  have hother : HasReport (store "`N``\n".toList) "P".toList "B".toList (reportOf "`N``\n".toList) :=
    ⟨Extractor.reportPath, by decide +kernel, by decide +kernel⟩
  have hfree : ∀ s ∈ ["# B\n".toList, "\nM\n".toList, "`N``\n".toList], HasNoFence s := by
    intro s hs
    simp only [List.mem_cons, List.not_mem_nil, or_false] at hs
    rcases hs with rfl | rfl | rfl <;> exact ⟨by decide, by decide⟩
  obtain ⟨stripped, otherStripped, kept, hextract, hotherExtract, -, hsame, -, -⟩ :=
    extract_environment hreport hother hstrips hstrips hkeeps
  obtain ⟨hcontent, htrimmed⟩ := hsame _ _ _ _ _ (hfree _ (by decide)) (hfree _ (by decide)) (hfree _ (by decide))
    (hfree _ (by decide)) rfl rfl
  exact ⟨stripped, otherStripped, hextract, hotherExtract, hcontent, (Text.isTrimmed_iff.mp htrimmed).symm.trans (by decide)⟩

end Benchmark

end Excerpt
