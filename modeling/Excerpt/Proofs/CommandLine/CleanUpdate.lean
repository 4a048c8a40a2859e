import Excerpt.CommandLine.Run
import Excerpt.Proofs.Project.Update

/-!
# Excerpt — runs after a clean update

An update that found nothing to complain about leaves nothing to be done. The next check passes and says of each
document that it is as it should be, in both forms that it has; the next update writes no file.

* **`check_of_forall_isSettled`**, **`update_of_forall_isSettled`** — what is said and done where nothing is to be done.
* **`exists_reports_of_exit_eq_zero`** — what an update has done that found nothing to complain about.
* **`run_after_update`** — the runs after it.
-/

namespace Excerpt

theorem Project.write_of_forall_isSettled {p : Project} {reports : List DocumentReport}
    (h : ∀ report ∈ reports, report.status.isSettled) : p.write reports = p := by
  induction reports with
  | nil => rfl
  | cons report rest ih =>
    obtain ⟨hreport, hrest⟩ := List.forall_mem_cons.mp h
    have hfirst : p.writeReport report = p := by
      unfold writeReport
      rw [Document.Status.content?_of_isSettled hreport]
    show (p.writeReport report).write rest = p
    rw [hfirst]
    exact ih hrest

namespace CommandLine

/-- The project that a request is about. -/
def Request.project (request : Request) (tree : Tree) (directory : Path) : Project :=
  ⟨tree, directory, request.path.getD []⟩

/-! ## Where nothing is to be done -/

/-- The words for a document that is as it should be. -/
def settledWords : Document.Status → String
  | .noExcerpts => "No snippets"
  | _ => "No changes"

/-- The words for a document that is as it should be, where programs read them. -/
def settledField : Document.Status → String
  | .noExcerpts => "\"status\":\"no-snippets\""
  | _ => "\"status\":\"up-to-date\""

/-- The lines about documents that are as they should be. -/
def settledLines (reports : List DocumentReport) : String :=
  String.join (reports.map fun report => statusLine report (settledWords report.status))

/-- What a check says about documents that are as they should be. -/
def settledOutput (reports : List DocumentReport) : Format → String
  | .text => settledLines reports ++ "Check passed: all snippets are up to date.\n"
  | .json =>
    "\x7b\"ok\":true,\"documents\":[" ++
      ",".intercalate (reports.map fun report => "\x7b\"file\":" ++
        shown (Text.jsonString report.path.text) ++ "," ++ settledField report.status ++ "\x7d") ++
      "]\x7d\n"

section Settled

variable {reports : List DocumentReport}

theorem settledLine_eq {report : DocumentReport} (h : report.status.isSettled) (plain : Bool) (updated : String) :
    statusLine report (statusWords plain updated report.status) ++ failureLines report.status =
      statusLine report (settledWords report.status) := by
  rcases Document.Status.isSettled_iff.mp h with hstatus | hstatus <;> rw [hstatus] <;> exact String.append_empty

theorem settledLines_eq (h : ∀ report ∈ reports, report.status.isSettled) (plain : Bool) (updated : String) :
    String.join (reports.map fun report =>
      statusLine report (statusWords plain updated report.status) ++ failureLines report.status) =
      settledLines reports :=
  congrArg String.join (List.map_congr_left fun report hreport => settledLine_eq (h report hreport) plain updated)

/-- What became of a document, where programs read it. -/
def statusField : Document.Status → String
  | .updated _ => "\"status\":\"stale\""
  | .noChanges => "\"status\":\"up-to-date\""
  | .noExcerpts => "\"status\":\"no-snippets\""
  | .failed failures =>
    "\"status\":\"failed\",\"error\":" ++ shown (Text.jsonString (LineFailure.diagnostic failures).message.toList)

theorem reportJson_eq_append (report : DocumentReport) :
    reportJson report = "\x7b\"file\":" ++ shown (Text.jsonString report.path.text) ++ "," ++
      statusField report.status ++ "\x7d" := by
  have hquoted : shown (Text.jsonString (shown report.path.text).toList) = shown (Text.jsonString report.path.text) :=
    congrArg (fun s => shown (Text.jsonString s)) String.toList_ofList
  have hstale : ",\"status\":" ++ shown (Text.jsonString "stale".toList) = "," ++ "\"status\":\"stale\"" := by
    decide +kernel
  have hcurrent : ",\"status\":" ++ shown (Text.jsonString "up-to-date".toList) =
      "," ++ "\"status\":\"up-to-date\"" := by
    decide +kernel
  have hnone : ",\"status\":" ++ shown (Text.jsonString "no-snippets".toList) =
      "," ++ "\"status\":\"no-snippets\"" := by
    decide +kernel
  have hfailed : ",\"status\":" ++ shown (Text.jsonString "failed".toList) ++ ",\"error\":" =
      "," ++ "\"status\":\"failed\",\"error\":" := by
    decide +kernel
  unfold reportJson statusField
  cases report.status <;> dsimp only <;>
    simp only [hquoted, hstale, hcurrent, hnone, hfailed, String.append_assoc]

theorem reportJson_eq {report : DocumentReport} (h : report.status.isSettled) :
    reportJson report = "\x7b\"file\":" ++ shown (Text.jsonString report.path.text) ++ "," ++
      settledField report.status ++ "\x7d" := by
  rw [reportJson_eq_append]
  rcases Document.Status.isSettled_iff.mp h with hstatus | hstatus <;> rw [hstatus] <;> rfl

theorem failedCount_of_forall_isSettled (h : ∀ report ∈ reports, report.status.isSettled) : failedCount reports = 0 :=
  List.countP_eq_zero.mpr fun report hreport => Document.Status.not_isFailed_of_isSettled (h report hreport)

theorem updated_of_forall_isSettled (h : ∀ report ∈ reports, report.status.isSettled) :
    Project.updated reports = [] := by
  refine List.filter_eq_nil_iff.mpr fun report hreport => ?_
  rw [Document.Status.content?_of_isSettled (h report hreport)]
  exact Bool.false_ne_true

theorem join_differences (h : ∀ report ∈ reports, report.status.isSettled) (plain : Bool) :
    String.join (reports.map (difference plain)) = "" := by
  induction reports with
  | nil => rfl
  | cons report rest ih =>
    obtain ⟨hreport, hrest⟩ := List.forall_mem_cons.mp h
    have hfirst : difference plain report = "" := by
      unfold difference
      rcases Document.Status.isSettled_iff.mp hreport with hstatus | hstatus <;> rw [hstatus]
    rw [List.map_cons, String.join_cons, hfirst, ih hrest, String.append_empty]

/-- **A check passes where all documents are as they should be**, and says of each that it is. -/
theorem check_of_forall_isSettled (h : ∀ report ∈ reports, report.status.isSettled) (plain diff : Bool)
    (format : Format) : check plain diff format reports = ⟨0, settledOutput reports format, ""⟩ := by
  unfold check
  rw [failedCount_of_forall_isSettled h, updated_of_forall_isSettled h]
  cases format with
  | json =>
    have hdocuments : reports.map reportJson = reports.map fun report => "\x7b\"file\":" ++
        shown (Text.jsonString report.path.text) ++ "," ++ settledField report.status ++ "\x7d" :=
      List.map_congr_left fun report hreport => reportJson_eq (h report hreport)
    show Outcome.mk 0 (checkJson true reports) "" = _
    unfold checkJson
    rw [hdocuments]
    rfl
  | text =>
    have hnothing : String.join (if diff then reports.map (difference plain) else []) = "" := by
      cases diff with
      | false => rfl
      | true => exact join_differences h plain
    dsimp only
    rw [settledLines_eq h, hnothing]
    rfl

/-- **An update writes nothing where all documents are as they should be.** -/
theorem update_of_forall_isSettled (h : ∀ report ∈ reports, report.status.isSettled) (plain : Bool) (p : Project) :
    update plain false p reports = (⟨0, settledLines reports ++ "Updated 0 document(s).\n", ""⟩, p) := by
  unfold update
  dsimp only
  rw [failedCount_of_forall_isSettled h, updated_of_forall_isSettled h, settledLines_eq h,
    Project.write_of_forall_isSettled h]
  rfl

end Settled

/-! ## Runs -/

section Runs

variable {tree : Tree} {directory : Path} {plain watch : Bool} {request : Request}

theorem run_of_request {arguments : List Text} (h : Reading.ofArguments arguments = .request request) (tree : Tree)
    (directory : Path) (plain : Bool) : run tree directory plain arguments = perform tree directory plain request := by
  unfold run
  rw [h]

theorem perform_eq (tree : Tree) (directory : Path) (plain : Bool) (request : Request) :
    perform tree directory plain request =
      match (request.project tree directory).settings.bind (request.project tree directory).sync with
      | .error e => (.ofError e, tree)
      | .ok reports =>
        match request.command with
        | .update dryRun _ =>
          let (outcome, p) := update (plain || request.plain) dryRun (request.project tree directory) reports
          (outcome, p.tree)
        | .check diff format => (check (plain || request.plain) diff format reports, tree) :=
  rfl

section Sync

variable {settings : Settings} {reports : List DocumentReport}

theorem bind_sync (hsettings : (request.project tree directory).settings = .ok settings)
    (hsync : (request.project tree directory).sync settings = .ok reports) :
    (request.project tree directory).settings.bind (request.project tree directory).sync = .ok reports := by
  rw [hsettings]
  exact hsync

theorem perform_update (hsettings : (request.project tree directory).settings = .ok settings)
    (hsync : (request.project tree directory).sync settings = .ok reports) {dryRun : Bool}
    (hcommand : request.command = .update dryRun watch) :
    perform tree directory plain request =
      ((update (plain || request.plain) dryRun (request.project tree directory) reports).1,
        (update (plain || request.plain) dryRun (request.project tree directory) reports).2.tree) := by
  rw [perform_eq, bind_sync hsettings hsync, hcommand]

theorem perform_check (hsettings : (request.project tree directory).settings = .ok settings)
    (hsync : (request.project tree directory).sync settings = .ok reports) {diff : Bool} {format : Format}
    (hcommand : request.command = .check diff format) :
    perform tree directory plain request = (check (plain || request.plain) diff format reports, tree) := by
  rw [perform_eq, bind_sync hsettings hsync, hcommand]

end Sync

/-- A run that comes to nothing does not end well. -/
theorem exists_sync_of_exit_eq_zero (hexit : (perform tree directory plain request).1.exit = 0) :
    ∃ settings reports, (request.project tree directory).settings = .ok settings ∧
      (request.project tree directory).sync settings = .ok reports := by
  -- settings that cannot be read and documents that cannot be processed end a run in the same way
  have hfails : ∀ e,
      (request.project tree directory).settings.bind (request.project tree directory).sync ≠ .error e := by
    intro e he
    rw [perform_eq, he] at hexit
    cases e <;> cases hexit
  cases hsettings : (request.project tree directory).settings with
  | error e => exact absurd (by rw [hsettings]; rfl) (hfails e)
  | ok settings =>
    cases hsync : (request.project tree directory).sync settings with
    | error e => exact absurd (by rw [hsettings]; exact hsync) (hfails e)
    | ok reports => exact ⟨settings, reports, rfl, hsync⟩

/-- **What an update has done that found nothing to complain about:** no document has failed, and those that were not
as they should be are written. -/
theorem exists_reports_of_exit_eq_zero (hcommand : request.command = .update false watch)
    (hexit : (perform tree directory plain request).1.exit = 0) :
    ∃ settings reports, (request.project tree directory).settings = .ok settings ∧
      (request.project tree directory).sync settings = .ok reports ∧
      (∀ report ∈ reports, ¬ report.status.isFailed) ∧
      (perform tree directory plain request).2 = ((request.project tree directory).write reports).tree := by
  obtain ⟨settings, reports, hsettings, hsync⟩ := exists_sync_of_exit_eq_zero hexit
  rw [perform_update hsettings hsync hcommand] at hexit ⊢
  refine ⟨settings, reports, hsettings, hsync, ?_, rfl⟩
  have hcount : failedCount reports = 0 := by
    by_contra hne
    have hone : exitCode (decide (failedCount reports = 0)) = 1 := by
      rw [decide_eq_false hne]
      rfl
    exact absurd (hone.symm.trans hexit) Nat.one_ne_zero
  exact List.countP_eq_zero.mp hcount

/-- **The runs after a clean update.** Where no document is read for another purpose and no excerpt closes its region,
an update that ends well leaves a tree in which every check of the project passes and every further update writes
nothing; both say of each document that it is as it should be. -/
theorem run_after_update {arguments : List Text} (hrequest : Reading.ofArguments arguments = .request request)
    (hcommand : request.command = .update false watch) (hexit : (run tree directory plain arguments).1.exit = 0)
    (hapart : ∀ settings reports, (request.project tree directory).settings = .ok settings →
      (request.project tree directory).sync settings = .ok reports →
      (request.project tree directory).KeepsApart settings reports ∧ ∀ report ∈ reports,
        RendersNoEndMarker (Engine.fresh.answer ((request.project tree directory).store settings)) report.text) :
    ∃ tree' settings reports, (run tree directory plain arguments).2 = tree' ∧
      (request.project tree' directory).settings = .ok settings ∧
      (request.project tree' directory).sync settings = .ok reports ∧
      (∀ report ∈ reports, report.status.isSettled) ∧
      ∀ plain' arguments' request', Reading.ofArguments arguments' = .request request' → request'.path = request.path →
        (∀ diff format, request'.command = .check diff format →
          run tree' directory plain' arguments' = (⟨0, settledOutput reports format, ""⟩, tree')) ∧
        ∀ watch', request'.command = .update false watch' → run tree' directory plain' arguments' =
          (⟨0, settledLines reports ++ "Updated 0 document(s).\n", ""⟩, tree') := by
  rw [run_of_request hrequest] at hexit ⊢
  obtain ⟨settings, reports, hsettings, hsync, hfailed, htree⟩ := exists_reports_of_exit_eq_zero hcommand hexit
  obtain ⟨hkeeps, hopen⟩ := hapart settings reports hsettings hsync
  obtain ⟨hsettings', reports', hsync', hreports'⟩ := Project.sync_write hsync hfailed hkeeps hopen
  obtain ⟨tree', hwrite, -⟩ := Project.exists_write_eq (request.project tree directory) reports
  rw [hwrite] at htree hsettings' hsync'
  have hsettled : ∀ report ∈ reports', report.status.isSettled := fun report hreport => (hreports' report hreport).1
  refine ⟨tree', settings, reports', htree, hsettings'.trans hsettings, hsync', hsettled, ?_⟩
  intro plain' arguments' request' hrequest' hpath
  -- both requests are about the project that the update has left behind
  have hproject : request'.project tree' directory = request.project tree' directory := by
    unfold Request.project
    rw [hpath]
  have hthere : (request'.project tree' directory).settings = .ok settings := by
    rw [hproject]
    exact hsettings'.trans hsettings
  have hreports : (request'.project tree' directory).sync settings = .ok reports' := by
    rw [hproject]
    exact hsync'
  rw [run_of_request hrequest']
  constructor
  · intro diff format hcheck
    rw [perform_check hthere hreports hcheck, check_of_forall_isSettled hsettled]
  · intro watch' hupdate
    rw [perform_update hthere hreports hupdate, update_of_forall_isSettled hsettled]
    rfl

/-- A tree with a source and a document that is to show an excerpt of it and does not yet. -/
def staleTree : Tree :=
  ((Tree.empty.put? ["R.cs".toList] (.file (Utf8.encodeFile "class R;".toList))).bind fun t =>
    t.put? ["README.md".toList] (.file (Utf8.encodeFile Document.asksForType))).getD .empty

/-- The report on the document: it is to be written. -/
def staleReport : DocumentReport :=
  ⟨["README.md".toList], Document.asksForType,
    .updated "<!-- begin-snippet: R.cs R -->\n```cs\nclass R;\n```\n<!-- end-snippet -->\n".toList⟩

/-- Nothing else is read where the document lies, and no excerpt closes its region. -/
theorem keepsApart_staleTree :
    (Project.mk staleTree [] []).KeepsApart .default [staleReport] ∧
      RendersNoEndMarker (Engine.fresh.answer ((Project.mk staleTree [] []).store .default)) staleReport.text := by
  have hplace : (Project.mk staleTree [] []).place staleReport.path = .ok ["README.md".toList] := by
    decide +kernel
  have hapart : ∀ directory written, staleTree.locate directory written ≠ .ok ["README.md".toList] →
      (Project.mk staleTree [] []).IsApart [staleReport] directory written := by
    intro directory written hne report hreport place hthere
    obtain rfl := List.mem_singleton.mp hreport
    rwa [← Except.ok.inj (hplace.symm.trans hthere)]
  have hnoSettings : (Project.mk staleTree [] []).settingsFile? = none := by decide +kernel
  have hroot : staleTree.directory? [] [] = some [] := by decide +kernel
  have hsources : ∀ line ∈ Text.lines staleReport.text,
      ∀ source ∈ Engine.fresh.readFor? ((Project.mk staleTree [] []).store .default) line.trimmed,
        staleTree.locate [] (Path.joinWritten ((Project.mk staleTree [] []).sourceRoot .default) source) ≠
          .ok ["README.md".toList] := by
    -- the kernel is given characters, for it is slow to take a long literal apart
    unfold staleReport staleTree Document.asksForType
    repeat rw [String.toList_ofList]
    decide +kernel
  have hopen : ∀ line ∈ Text.lines staleReport.text,
      ∀ l ∈ Text.lines ((Engine.fresh.answer ((Project.mk staleTree [] []).store .default)
        line.trimmed).toOption.getD []), ¬ l.closesRegion := by
    unfold staleReport staleTree Document.asksForType
    repeat rw [String.toList_ofList]
    decide +kernel
  refine ⟨⟨?_, ?_, ?_⟩, Document.rendersNoEndMarker_of_forall_mem_lines ?_⟩
  · intro file hfile
    exact nomatch hnoSettings.symm.trans hfile
  · intro start hstart
    obtain rfl := Option.some.inj (hroot.symm.trans hstart)
    exact hapart _ _ (by decide +kernel)
  · intro report hreport pieces hdivision opening old closing hregion source hsource
    obtain rfl := List.mem_singleton.mp hreport
    have hline : opening ∈ Text.lines staleReport.text := by
      rw [← hdivision.covers]
      exact List.mem_flatMap.mpr ⟨_, hregion, List.mem_cons_self⟩
    exact hapart _ _ (hsources opening hline source hsource)
  · intro line hline rendered hrendered l hl
    refine hopen line hline l ?_
    rw [hrendered]
    exact hl

/-- The document is written by the first run and by none after it, and the checks pass. -/
theorem run_after_update_staleTree :
    (run staleTree [] true ["update".toList]).1 = ⟨0, "README.md: Updated\nUpdated 1 document(s).\n", ""⟩ ∧
      ∃ tree', (run staleTree [] true ["update".toList]).2 = tree' ∧
        (run tree' [] true ["check".toList]).1.exit = 0 ∧
        (run tree' [] true ["check".toList, "--format=json".toList]).1.exit = 0 ∧
        (run tree' [] true ["update".toList]).2 = tree' := by
  let request : Request := ⟨.update false false, none, false, false⟩
  have hrequest : Reading.ofArguments ["update".toList] = .request request := by decide +kernel
  have hsettings : (request.project staleTree []).settings = .ok .default := by decide +kernel
  have hsync : (request.project staleTree []).sync .default = .ok [staleReport] := by
    unfold staleReport staleTree Document.asksForType
    repeat rw [String.toList_ofList]
    decide +kernel
  have hfirst : (run staleTree [] true ["update".toList]).1 =
      ⟨0, "README.md: Updated\nUpdated 1 document(s).\n", ""⟩ := by
    rw [run_of_request hrequest, perform_update hsettings hsync rfl]
    decide +kernel
  refine ⟨hfirst, ?_⟩
  have hafter := @run_after_update staleTree [] true false _ _ hrequest rfl (by rw [hfirst]) ?_
  · obtain ⟨tree', settings, reports, htree, -, -, -, hruns⟩ := hafter
    have hcheck := (hruns true ["check".toList] ⟨.check false .text, none, false, false⟩
      (by decide +kernel) rfl).1 _ _ rfl
    have hjson := (hruns true ["check".toList, "--format=json".toList] ⟨.check false .json, none, false, false⟩
      (by decide +kernel) rfl).1 _ _ rfl
    have hagain := (hruns true ["update".toList] ⟨.update false false, none, false, false⟩
      (by decide +kernel) rfl).2 _ rfl
    exact ⟨tree', htree, by rw [hcheck], by rw [hjson], by rw [hagain]⟩
  · intro settings reports hfound hreports
    obtain rfl := Except.ok.inj (hsettings.symm.trans hfound)
    obtain rfl := Except.ok.inj (hsync.symm.trans hreports)
    exact ⟨keepsApart_staleTree.1, List.forall_mem_singleton.mpr keepsApart_staleTree.2⟩

end Runs

end CommandLine

end Excerpt
