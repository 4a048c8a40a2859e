import Excerpt.Proofs.CommandLine.CleanUpdate

/-!
# Excerpt — what is written and what is said to be stale

Only documents that are not as they should be are ever written, and these are the ones that a check complains about.
A dry run and a check leave the tree alone. An update gives every document with another text that text and leaves
everything else as it is: a document that has failed, even if some of its excerpts were found, one that is as it
should be, a file that is no text, and whatever is no document.

* **`Project.IsUpdate`**, **`Project.exists_isUpdate_write`** — the tree after an update, told document by document.
* **`Project.IsUpdate.entry?_ne_iff`** — what has changed is where documents lie that are not as they should be.
* **`CommandLine.checkEntry_eq_staleEntry_iff`** — a check says so of exactly these, in both forms that it has.
* **`CommandLine.run_writes_stale`** — the runs on a project: what they write, what they say and how they end.
-/

namespace Excerpt

namespace Document

/-- The new text of a document is another one than it has, and the one that its directives are answered with. -/
theorem process_of_sync_eq_updated {store : Store} {engine : Engine} {text written : Text}
    (h : (sync store engine text).1 = .updated written) :
    (process store engine text).1 = .ok (written, true) ∧ written ≠ text := by
  unfold sync processInto at h
  rcases hprocess : process store engine text with ⟨_ | ⟨written', changed⟩, engine'⟩
  · rw [hprocess] at h
    exact nomatch h
  · rw [hprocess] at h
    cases changed with
    | false => exact nomatch h
    | true =>
      dsimp only [List.nil_append] at h
      rw [if_neg (by decide)] at h
      split at h
      · exact nomatch h
      · next hne =>
        obtain rfl := Status.updated.inj h
        exact ⟨rfl, hne⟩

end Document

namespace Project

/-- Whether the document is not as it should be, and can be brought there. -/
def IsStale (report : DocumentReport) : Prop := ∃ text, report.status = .updated text

theorem mem_updated_iff {reports : List DocumentReport} {report : DocumentReport} :
    report ∈ updated reports ↔ report ∈ reports ∧ IsStale report := by
  unfold updated IsStale
  rw [List.mem_filter]
  cases report.status <;> simp [Document.Status.content?]

theorem updated_eq_nil_iff {reports : List DocumentReport} :
    updated reports = [] ↔ ∀ report ∈ reports, ¬ IsStale report := by
  rw [List.eq_nil_iff_forall_not_mem]
  simp only [mem_updated_iff, not_and]

theorem content?_eq_none_iff {report : DocumentReport} : report.status.content? = none ↔ ¬ IsStale report := by
  unfold IsStale
  cases report.status <;> simp [Document.Status.content?]

/-! ## The tree after an update -/

/-- The second tree is what an update leaves behind by the reports on the documents of a project. -/
structure IsUpdate (p : Project) (reports : List DocumentReport) (t : Tree) : Prop where
  /-- A document with another text, which it did not have before, has that text. -/
  written : ∀ report ∈ reports, ∀ text, report.status = .updated text → ∃ place content,
    p.place report.path = .ok place ∧ p.tree.entry? place = some (.file content) ∧
      Utf8.decode? content = some report.text ∧ text ≠ report.text ∧
      t.entry? place = some (.file (Utf8.encodeFile text))
  /-- A document that has failed, is as it should be or takes no excerpts is as it was. -/
  kept : ∀ report ∈ reports, ¬ IsStale report → ∀ place, p.place report.path = .ok place →
    t.entry? place = p.tree.entry? place
  /-- A file that is no text is as it was. -/
  notText : ∀ path, p.tree.readText p.directory path = .error .notText → ∀ place,
    p.tree.locate p.directory path = .ok place → t.entry? place = p.tree.entry? place
  /-- Where there is no report on what lies there, all is as it was. -/
  elsewhere : ∀ place, (∀ report ∈ reports, p.place report.path ≠ .ok place) → t.entry? place = p.tree.entry? place

section Update

variable {p : Project} {store : Store} {reports : List DocumentReport} {place : Path} {t : Tree}

/-- There is a report on a file with the text. -/
theorem exists_file_of_report? {report : DocumentReport} (h : p.report? store report.path = some report) :
    ∃ place content, p.place report.path = .ok place ∧ p.tree.entry? place = some (.file content) ∧
      Utf8.decode? content = some report.text := by
  have hread := (report?_eq_some_iff.mp h).2.1
  have hread' := hread
  unfold Tree.readText Tree.readBytes at hread
  cases hplace : p.tree.locate p.directory (p.within report.path.text) with
  | error fault => simp [hplace] at hread
  | ok place =>
    cases hentry : p.tree.entry? place with
    | none => simp [hplace, hentry] at hread
    | some entry =>
      cases entry with
      | directory => simp [hplace, hentry] at hread
      | link target => simp [hplace, hentry] at hread
      | file content => exact ⟨place, content, hplace, hentry, decode?_of_report? h hplace hentry⟩

theorem entry?_eq_of_forall_none (hrevision : Tree.IsRevision (p.contentAfter reports) p.tree t)
    (h : ∀ report ∈ reports, p.place report.path = .ok place → report.status.content? = none) :
    t.entry? place = p.tree.entry? place := by
  have hkept : p.contentAfter reports place = fun content => content :=
    funext fun content => contentAfter_of_forall_none h
  rw [hrevision.liesAlike, hkept]
  cases p.tree.entry? place with
  | none => rfl
  | some entry => exact congrArg some entry.revise_id

/-- **An update leaves behind what the reports say.** Two paths may lead to one document; the reports on it are alike,
so no report on another path writes what a report leaves alone. -/
theorem isUpdate_of_isRevision (hreports : ∀ report ∈ reports, p.report? store report.path = some report)
    (hrevision : Tree.IsRevision (p.contentAfter reports) p.tree t) : p.IsUpdate reports t where
  written report hreport text hstatus := by
    obtain ⟨place, content, hplace, hentry, hdecode⟩ := exists_file_of_report? (hreports report hreport)
    have hsame : ∀ other ∈ reports, p.place other.path = .ok place → other.status.content? = some text := by
      intro other hother hthere
      rw [status_eq_of_place_eq hreports hentry hreport hplace hother hthere, hstatus]
      rfl
    have hsync := (report?_eq_some_iff.mp (hreports report hreport)).2.2
    refine ⟨place, content, hplace, hentry, hdecode,
      (Document.process_of_sync_eq_updated (hsync.symm.trans hstatus)).2, ?_⟩
    rw [hrevision.liesAlike, hentry]
    exact congrArg (fun content => some (Entry.file content))
      (contentAfter_of_forall_some hsame ⟨report, hreport, hplace⟩)
  kept report hreport hstale place hplace := by
    obtain ⟨place', content, hplace', hentry, -⟩ := exists_file_of_report? (hreports report hreport)
    obtain rfl := Except.ok.inj (hplace.symm.trans hplace')
    refine entry?_eq_of_forall_none hrevision fun other hother hthere => ?_
    rw [status_eq_of_place_eq hreports hentry hreport hplace hother hthere]
    exact content?_eq_none_iff.mpr hstale
  notText path hread place hplace := by
    refine entry?_eq_of_forall_none hrevision fun report hreport hthere => ?_
    -- a report would be about a text
    obtain ⟨place', content, hplace', hentry, hdecode⟩ := exists_file_of_report? (hreports report hreport)
    obtain rfl := Except.ok.inj (hthere.symm.trans hplace')
    simp [Tree.readText, Tree.readBytes, hplace, hentry, hdecode] at hread
  elsewhere place hplace :=
    entry?_eq_of_forall_none hrevision fun report hreport hthere => absurd hthere (hplace report hreport)

theorem exists_isUpdate_write (hreports : ∀ report ∈ reports, p.report? store report.path = some report) :
    ∃ t, p.write reports = { p with tree := t } ∧ p.IsUpdate reports t := by
  obtain ⟨t, hwrite, hrevision⟩ := exists_write_eq p reports
  exact ⟨t, hwrite, isUpdate_of_isRevision hreports hrevision⟩

namespace IsUpdate

/-- **What has changed** is where documents lie that were not as they should be. -/
theorem entry?_ne_iff (h : p.IsUpdate reports t) :
    t.entry? place ≠ p.tree.entry? place ↔
      ∃ report ∈ reports, p.place report.path = .ok place ∧ IsStale report := by
  constructor
  · intro hne
    by_contra hnone
    by_cases hthere : ∃ report ∈ reports, p.place report.path = .ok place
    · obtain ⟨report, hreport, hplace⟩ := hthere
      exact hne (h.kept report hreport (fun hstale => hnone ⟨report, hreport, hplace, hstale⟩) place hplace)
    · exact hne (h.elsewhere place fun report hreport hplace => hthere ⟨report, hreport, hplace⟩)
  · rintro ⟨report, hreport, hplace, text, hstatus⟩ heq
    obtain ⟨place', content, hplace', hentry, hdecode, hne, hwritten⟩ := h.written report hreport text hstatus
    obtain rfl := Except.ok.inj (hplace.symm.trans hplace')
    rw [heq, hentry] at hwritten
    obtain rfl := Entry.file.inj (Option.some.inj hwritten)
    exact hne (Option.some.inj ((Utf8.decode?_encodeFile text).symm.trans hdecode))

end IsUpdate

end Update

end Project

namespace CommandLine

/-! ## What a check says -/

/-- What a check says about a document. -/
def checkEntry (plain : Bool) : Format → DocumentReport → String
  | .text, report =>
    statusLine report (statusWords plain (paint plain .yellow "Stale") report.status) ++ failureLines report.status
  | .json, report => reportJson report

/-- What a check says about a document that is not as it should be. -/
def staleEntry (plain : Bool) : Format → Path → String
  | .text, path => shown path.text ++ ": " ++ paint plain .yellow "Stale" ++ "\n"
  | .json, path => "\x7b\"file\":" ++ shown (Text.jsonString path.text) ++ ",\"status\":\"stale\"\x7d"

/-- All that a check says, made of what it says about each document. -/
def checkOutput (passed : Bool) : Format → List String → String
  | .text, entries => String.join entries ++ if passed then "Check passed: all snippets are up to date.\n" else ""
  | .json, entries =>
    "\x7b\"ok\":" ++ (if passed then "true" else "false") ++ ",\"documents\":[" ++ ",".intercalate entries ++ "]\x7d\n"

theorem output_check (plain diff : Bool) (format : Format) (reports : List DocumentReport) :
    (check plain diff format reports).output =
      checkOutput (failedCount reports = 0 && (Project.updated reports).length = 0) format
        (reports.map (checkEntry plain format)) := by
  cases format <;> rfl

/-- The words for a document that is not as it should be are those for no other one. -/
theorem statusWords_stale_iff (plain : Bool) {status : Document.Status} :
    statusWords plain (paint plain .yellow "Stale") status ++ "\n" ++ failureLines status =
      paint plain .yellow "Stale" ++ "\n" ↔ ∃ text, status = .updated text := by
  have hapart : ∀ words rest : String, words ++ "\n" ++ rest = paint plain .yellow "Stale" ++ "\n" →
      words.toList ++ '\n' :: rest.toList = (paint plain .yellow "Stale").toList ++ ['\n'] := by
    intro words rest h
    simpa using congrArg String.toList h
  cases status with
  | updated text => exact ⟨fun _ => ⟨text, rfl⟩, fun _ => String.append_empty⟩
  | noChanges =>
    refine ⟨fun h => absurd (hapart "No changes" _ h) ?_, nofun⟩
    cases plain <;> simp [paint, Colour.code]
  | noExcerpts =>
    refine ⟨fun h => absurd (hapart "No snippets" _ h) ?_, nofun⟩
    cases plain <;> simp [paint, Colour.code]
  | failed failures =>
    refine ⟨fun h => absurd (hapart (paint plain .red "Failed") _ h) ?_, nofun⟩
    cases plain <;> simp [paint, Colour.code]

/-- Where programs read what became of a document, too. -/
theorem statusField_stale_iff {status : Document.Status} :
    statusField status ++ "\x7d" = "\"status\":\"stale\"\x7d" ↔ ∃ text, status = .updated text := by
  cases status with
  | updated text => exact ⟨fun _ => ⟨text, rfl⟩, fun _ => rfl⟩
  | noChanges => exact ⟨fun h => absurd h (by decide +kernel), nofun⟩
  | noExcerpts => exact ⟨fun h => absurd h (by decide +kernel), nofun⟩
  | failed failures =>
    refine ⟨fun h => ?_, nofun⟩
    -- the words differ where they begin
    have hword : "\"status\":\"stale\"\x7d".toList.take 11 = "\"status\":\"failed\",\"error\":".toList.take 11 := by
      rw [← h]
      unfold statusField
      rw [String.toList_append, String.toList_append, List.append_assoc]
      exact List.take_append_of_le_length (by decide +kernel)
    exact absurd hword (by decide +kernel)

/-- **A check says that a document is not as it should be exactly if it is to be written.** -/
theorem checkEntry_eq_staleEntry_iff {plain : Bool} {format : Format} {report : DocumentReport} :
    checkEntry plain format report = staleEntry plain format report.path ↔ Project.IsStale report := by
  unfold Project.IsStale
  cases format with
  | text =>
    rw [← statusWords_stale_iff plain]
    unfold checkEntry staleEntry statusLine
    simp only [String.append_assoc, String.append_right_inj]
  | json =>
    have hstale : ",\"status\":\"stale\"\x7d" = "," ++ "\"status\":\"stale\"\x7d" := by decide +kernel
    rw [← statusField_stale_iff]
    unfold checkEntry staleEntry
    dsimp only
    rw [reportJson_eq_append, hstale]
    simp only [String.append_assoc, String.append_right_inj]

/-! ## How runs end -/

theorem failedCount_eq_zero_iff {reports : List DocumentReport} :
    failedCount reports = 0 ↔ ∀ report ∈ reports, ¬ report.status.isFailed :=
  List.countP_eq_zero

theorem exitCode_eq_zero_iff {passed : Bool} : exitCode passed = 0 ↔ passed = true := by
  cases passed <;> decide

theorem exit_update_eq_zero_iff {plain dryRun : Bool} {p : Project} {reports : List DocumentReport} :
    (update plain dryRun p reports).1.exit = 0 ↔ ∀ report ∈ reports, ¬ report.status.isFailed := by
  show exitCode (decide (failedCount reports = 0)) = 0 ↔ _
  rw [exitCode_eq_zero_iff, decide_eq_true_iff, failedCount_eq_zero_iff]

theorem exit_check_eq_zero_iff {plain diff : Bool} {format : Format} {reports : List DocumentReport} :
    (check plain diff format reports).exit = 0 ↔
      ∀ report ∈ reports, ¬ report.status.isFailed ∧ ¬ Project.IsStale report := by
  have hexit : (check plain diff format reports).exit =
      exitCode (decide (failedCount reports = 0) && decide ((Project.updated reports).length = 0)) := by
    cases format <;> rfl
  rw [hexit, exitCode_eq_zero_iff, Bool.and_eq_true, decide_eq_true_iff, decide_eq_true_iff, failedCount_eq_zero_iff,
    List.length_eq_zero_iff, Project.updated_eq_nil_iff]
  exact ⟨fun h report hreport => ⟨h.1 report hreport, h.2 report hreport⟩,
    fun h => ⟨fun report hreport => (h report hreport).1, fun report hreport => (h report hreport).2⟩⟩

/-! ## Runs on one project -/

section Runs

variable {p : Project} {reports : List DocumentReport}

/-- The arguments are a request about the project. -/
def IsAbout (p : Project) (arguments : List Text) (request : Request) : Prop :=
  Reading.ofArguments arguments = .request request ∧ request.path.getD [] = p.root

instance (p : Project) (arguments : List Text) (request : Request) : Decidable (IsAbout p arguments request) :=
  inferInstanceAs (Decidable (_ ∧ _))

theorem run_of_isAbout {arguments : List Text} {request : Request} (h : IsAbout p arguments request) (plain : Bool) :
    run p.tree p.directory plain arguments =
      match p.settings.bind p.sync with
      | .error e => (.ofError e, p.tree)
      | .ok reports =>
        match request.command with
        | .update dryRun _ =>
          let (outcome, p') := update (plain || request.plain) dryRun p reports
          (outcome, p'.tree)
        | .check diff format => (check (plain || request.plain) diff format reports, p.tree) := by
  have hproject : request.project p.tree p.directory = p := by
    unfold Request.project
    rw [h.2]
  have hperform := perform_eq p.tree p.directory plain request
  rw [hproject] at hperform
  exact (run_of_request h.1 p.tree p.directory plain).trans hperform

/-- A run finds a fault exactly if it does not come to reports on the documents. -/
theorem exit_le_one_iff {arguments : List Text} {request : Request} (h : IsAbout p arguments request) {plain : Bool} :
    (run p.tree p.directory plain arguments).1.exit ≤ 1 ↔ ∃ reports, p.settings.bind p.sync = .ok reports := by
  have hcode : ∀ passed, exitCode passed ≤ 1 := fun passed => by cases passed <;> decide
  have hfault : ∀ e, 1 < (Outcome.ofError e).exit := fun e => by cases e <;> simp [Outcome.ofError]
  rw [run_of_isAbout h]
  cases hsync : p.settings.bind p.sync with
  | error e => exact ⟨fun hexit => absurd hexit (Nat.not_le.mpr (hfault e)), nofun⟩
  | ok reports =>
    refine ⟨fun _ => ⟨reports, rfl⟩, fun _ => ?_⟩
    cases request.command with
    | update dryRun watch => exact hcode _
    | check diff format => cases format <;> exact hcode _

/-- The reports are on the documents that are found and are texts, and each says what its text comes to. -/
theorem exists_paths_of_sync (h : p.settings.bind p.sync = .ok reports) :
    ∃ settings selection paths, p.settings = .ok settings ∧ Selection.ofSettings settings = .ok selection ∧
      Discovery.documents p.tree p.directory p.root selection = .ok paths ∧
      reports = paths.filterMap (p.report? (p.store settings)) ∧
      ∀ report ∈ reports, p.report? (p.store settings) report.path = some report := by
  cases hsettings : p.settings with
  | error e => exact nomatch hsettings ▸ h
  | ok settings =>
    rw [hsettings] at h
    obtain ⟨selection, paths, hselection, hpaths, -, hreports⟩ := Project.sync_eq_ok_iff.mp h
    exact ⟨settings, selection, paths, rfl, hselection, hpaths, hreports,
      fun report hreport => (Project.mem_filterMap_report?_iff.mp (hreports ▸ hreport)).2⟩

/-- **Only documents that are not as they should be are ever written.** Where a project's documents can be reported
on, a dry run and a check leave its tree alone; an update leaves behind what the reports say, and has changed what lies
at a place exactly if a check says of a document there that it is not as it should be. Updates end well if no document
has failed, checks if besides none is to be written. -/
theorem run_writes_stale (h : p.settings.bind p.sync = .ok reports) :
    (∀ plain arguments request, IsAbout p arguments request → request.command = .update true false →
      (run p.tree p.directory plain arguments).2 = p.tree ∧
      ((run p.tree p.directory plain arguments).1.exit = 0 ↔ ∀ report ∈ reports, ¬ report.status.isFailed)) ∧
    (∀ plain arguments request diff format, IsAbout p arguments request → request.command = .check diff format →
      (run p.tree p.directory plain arguments).2 = p.tree ∧
      ((run p.tree p.directory plain arguments).1.exit = 0 ↔
        ∀ report ∈ reports, ¬ report.status.isFailed ∧ ¬ Project.IsStale report) ∧
      ∃ passed, (run p.tree p.directory plain arguments).1.output =
        checkOutput passed format (reports.map (checkEntry (plain || request.plain) format))) ∧
    ∃ t, p.IsUpdate reports t ∧
      (∀ plain arguments request, IsAbout p arguments request → request.command = .update false false →
        (run p.tree p.directory plain arguments).2 = t ∧
        ((run p.tree p.directory plain arguments).1.exit = 0 ↔ ∀ report ∈ reports, ¬ report.status.isFailed)) ∧
      ∀ plain format place, t.entry? place ≠ p.tree.entry? place ↔
        ∃ report ∈ reports, p.place report.path = .ok place ∧
          checkEntry plain format report = staleEntry plain format report.path := by
  obtain ⟨settings, selection, paths, -, -, -, -, hreports⟩ := exists_paths_of_sync h
  obtain ⟨t, hwrite, hupdate⟩ := Project.exists_isUpdate_write hreports
  refine ⟨?_, ?_, t, hupdate, ?_, ?_⟩
  · intro plain arguments request habout hcommand
    rw [run_of_isAbout habout, h, hcommand]
    exact ⟨rfl, exit_update_eq_zero_iff (p := p)⟩
  · intro plain arguments request diff format habout hcommand
    rw [run_of_isAbout habout, h, hcommand]
    exact ⟨rfl, exit_check_eq_zero_iff, _, output_check (plain || request.plain) diff format reports⟩
  · intro plain arguments request habout hcommand
    rw [run_of_isAbout habout, h, hcommand]
    refine ⟨?_, exit_update_eq_zero_iff (p := p)⟩
    show (p.write reports).tree = t
    rw [hwrite]
  · intro plain format place
    simp only [checkEntry_eq_staleEntry_iff]
    exact hupdate.entry?_ne_iff

/-- A document with an excerpt that is found and one that is not. -/
def halfFound : Text := Document.asksForType ++ "<!-- begin-snippet: R.cs Q -->\n<!-- end-snippet -->\n".toList

/-- A tree with a source and four documents: one is to be written, one has failed although one of its excerpts is
found, one takes no excerpts, and one is no text. -/
def mixedTree : Tree :=
  let put (t : Tree) (file : String × ByteArray) : Option Tree := t.put? [file.1.toList] (.file file.2)
  ([("R.cs", Utf8.encodeFile "class R;".toList), ("raw.md", ⟨#[0xff]⟩),
    ("plain.md", Utf8.encodeFile "# R\n".toList), ("broken.md", Utf8.encodeFile halfFound),
    ("README.md", Utf8.encodeFile Document.asksForType)].foldlM put .empty).getD .empty

/-- The reports on its documents. -/
def mixedReports : List DocumentReport :=
  [staleReport,
    ⟨["broken.md".toList], halfFound, .failed [⟨3, .excerptNotFound "Q".toList "R.cs".toList⟩]⟩,
    ⟨["plain.md".toList], "# R\n".toList, .noExcerpts⟩]

/-- The paths of its documents. -/
def mixedPaths : List Path := ["README.md", "broken.md", "plain.md", "raw.md"].map fun name => [name.toList]

theorem documents_mixedTree :
    Discovery.documents mixedTree [] [] ⟨[], [], Settings.default.maxSize, true⟩ = .ok mixedPaths := by
  have hroot : mixedTree.directory? [] [] = some [] := by decide +kernel
  have hrun : (Discovery.Search.mk mixedTree [] ⟨[], [], Settings.default.maxSize, true⟩).run mixedTree.directories
      [⟨[], []⟩] [] = .ok mixedPaths := by
    decide +kernel
  have hsorted : mixedPaths.mergeSort Path.le = mixedPaths := List.mergeSort_of_pairwise (by decide +kernel)
  unfold Discovery.documents
  rw [hroot]
  dsimp only
  rw [if_pos rfl, show Discovery.ignoredIn mixedTree [] = [] by decide +kernel, hrun]
  dsimp only [Except.map]
  rw [hsorted]

theorem sync_mixedTree :
    (Project.mk mixedTree [] []).settings.bind (Project.mk mixedTree [] []).sync = .ok mixedReports := by
  have hsettings : (Project.mk mixedTree [] []).settings = .ok .default := by decide +kernel
  have heach : (Project.mk mixedTree [] []).syncEach ((Project.mk mixedTree [] []).store .default) .fresh mixedPaths =
      .ok mixedReports := by
    -- the kernel is given characters, for it is slow to take a long literal apart
    unfold mixedReports staleReport mixedPaths mixedTree halfFound Document.asksForType
    repeat rw [String.toList_ofList]
    decide +kernel
  rw [hsettings]
  dsimp only [Except.bind]
  unfold Project.sync
  rw [show Selection.ofSettings .default = .ok ⟨[], [], Settings.default.maxSize, true⟩ from rfl]
  dsimp only [Except.mapError, bind, Except.bind]
  rw [documents_mixedTree]
  exact heach

/-- Only the first document is ever written, and no run on the tree ends well. -/
theorem run_writes_stale_mixedTree :
    (run mixedTree [] true ["update".toList, "--dry-run".toList]).2 = mixedTree ∧
      (run mixedTree [] true ["check".toList]).2 = mixedTree ∧
      (run mixedTree [] true ["check".toList]).1.exit ≠ 0 ∧ (run mixedTree [] true ["update".toList]).1.exit ≠ 0 ∧
      ∃ t, (run mixedTree [] true ["update".toList]).2 = t ∧
        t.entry? ["README.md".toList] = some (.file (Utf8.encodeFile
          "<!-- begin-snippet: R.cs R -->\n```cs\nclass R;\n```\n<!-- end-snippet -->\n".toList)) ∧
        ∀ place, place ≠ ["README.md".toList] → t.entry? place = mixedTree.entry? place := by
  have hplace : (Project.mk mixedTree [] []).place staleReport.path = .ok ["README.md".toList] := by decide +kernel
  have hdry : IsAbout ⟨mixedTree, [], []⟩ ["update".toList, "--dry-run".toList]
      ⟨.update true false, none, false, false⟩ := by
    decide +kernel
  have hcheck : IsAbout ⟨mixedTree, [], []⟩ ["check".toList] ⟨.check false .text, none, false, false⟩ := by
    decide +kernel
  have hwrite : IsAbout ⟨mixedTree, [], []⟩ ["update".toList] ⟨.update false false, none, false, false⟩ := by
    decide +kernel
  have hfailed : ∃ report ∈ mixedReports, report.status.isFailed := by decide +kernel
  obtain ⟨hdryRuns, hchecks, t, hupdate, hupdates, hchanged⟩ := run_writes_stale sync_mixedTree
  obtain ⟨broken, hbroken, hstatus⟩ := hfailed
  refine ⟨(hdryRuns true _ _ hdry rfl).1, (hchecks true _ _ _ _ hcheck rfl).1,
    fun hexit => ((hchecks true _ _ _ _ hcheck rfl).2.1.mp hexit broken hbroken).1 hstatus,
    fun hexit => (hupdates true _ _ hwrite rfl).2.mp hexit broken hbroken hstatus,
    t, (hupdates true _ _ hwrite rfl).1, ?_, fun place hne => ?_⟩
  · obtain ⟨place, content, hthere, -, -, -, hentry⟩ := hupdate.written staleReport List.mem_cons_self _ rfl
    obtain rfl := Except.ok.inj (hplace.symm.trans hthere)
    exact hentry
  · by_contra hentry
    obtain ⟨report, hreport, hthere, hstale⟩ := (hchanged true .text place).mp hentry
    obtain ⟨text, hupdated⟩ := checkEntry_eq_staleEntry_iff.mp hstale
    -- the other reports say that nothing is to be written
    rcases List.mem_cons.mp hreport with rfl | hrest
    · exact hne (Except.ok.inj (hthere.symm.trans hplace))
    · rcases List.mem_cons.mp hrest with rfl | hlast
      · exact nomatch hupdated
      · obtain rfl := List.mem_singleton.mp hlast
        exact nomatch hupdated

end Runs

end CommandLine

end Excerpt
