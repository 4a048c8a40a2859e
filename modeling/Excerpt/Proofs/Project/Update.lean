import Excerpt.Proofs.Document.Settled
import Excerpt.Proofs.Engine.Reads
import Excerpt.Proofs.Project.Reports

/-!
# Excerpt — projects that were brought up to date

An update writes the documents that are not as they should be and nothing else. Where none of the documents is read
for another purpose, the project has the same settings afterwards, the same documents are found but for those that
have become too large, and every directive gets the answer that it got. So nothing is left to be done.

* **`Project.contentAfter`**, **`Project.exists_write_eq`** — what is written where.
* **`Project.readText_write`** — each document holds the text that it should have.
* **`Project.KeepsApart`** — no document is the settings file, the ignore file or a source.
* **`Project.sync_write`** — the reports on the documents after an update.
-/

namespace Excerpt

namespace Project

/-- Where a document lies. -/
def place (p : Project) (path : Path) : Except FileFault Path := p.tree.locate p.directory (p.within path.text)

/-- What a file holds after a report was written, by the place of the file. -/
def overwrite (p : Project) (place : Path) (content : ByteArray) (report : DocumentReport) : ByteArray :=
  match report.status.content? with
  | none => content
  | some text => if p.place report.path = .ok place then Utf8.encodeFile text else content

/-- What a file holds after reports were written, by the place of the file. -/
def contentAfter (p : Project) (reports : List DocumentReport) (place : Path) (content : ByteArray) : ByteArray :=
  reports.foldl (p.overwrite place) content

/-! ## What is written where -/

section Write

variable {p : Project} {reports : List DocumentReport} {place : Path} {content : ByteArray}

theorem exists_writeReport_eq (p : Project) (report : DocumentReport) :
    ∃ t, p.writeReport report = { p with tree := t } ∧
      Tree.IsRevision (fun place content => p.overwrite place content report) p.tree t := by
  unfold writeReport overwrite
  cases report.status.content? with
  | none => exact ⟨p.tree, rfl, .refl p.tree⟩
  | some text =>
    refine ⟨_, rfl, ?_⟩
    unfold Tree.writeText Project.place
    cases p.tree.locate p.directory (p.within report.path.text) with
    | error fault => simpa using Tree.IsRevision.refl p.tree
    | ok there => simpa [eq_comm] using Tree.isRevision_setContent p.tree there (Utf8.encodeFile text)

theorem contentAfter_eq_of_isRevision {f : Path → ByteArray → ByteArray} {t : Tree}
    (h : Tree.IsRevision f p.tree t) (reports : List DocumentReport) :
    contentAfter { p with tree := t } reports = contentAfter p reports := by
  have hplace : ∀ path, Project.place { p with tree := t } path = p.place path :=
    fun path => h.liesAlike.locate_eq p.directory (p.within path.text)
  funext place content
  unfold contentAfter overwrite
  simp only [hplace]

/-- **The tree after reports were written** has what was written in its files. Induction on the reports; a document
lies where it lay. -/
theorem exists_write_eq (p : Project) (reports : List DocumentReport) :
    ∃ t, p.write reports = { p with tree := t } ∧ Tree.IsRevision (p.contentAfter reports) p.tree t := by
  induction reports generalizing p with
  | nil => exact ⟨p.tree, rfl, .refl p.tree⟩
  | cons report rest ih =>
    obtain ⟨t, hfirst, hrevision⟩ := exists_writeReport_eq p report
    obtain ⟨t', hrest, hrevision'⟩ := ih (p.writeReport report)
    rw [hfirst] at hrest hrevision'
    rw [contentAfter_eq_of_isRevision hrevision] at hrevision'
    refine ⟨t', ?_, hrevision.trans hrevision'⟩
    show (p.writeReport report).write rest = _
    rw [hfirst, hrest]

theorem contentAfter_of_forall_none
    (h : ∀ report ∈ reports, p.place report.path = .ok place → report.status.content? = none) :
    p.contentAfter reports place content = content := by
  induction reports with
  | nil => rfl
  | cons report rest ih =>
    obtain ⟨hreport, hrest⟩ := List.forall_mem_cons.mp h
    have hfirst : p.overwrite place content report = content := by
      unfold overwrite
      by_cases hplace : p.place report.path = .ok place
      · rw [hreport hplace]
      · cases report.status.content? with
        | none => rfl
        | some text => exact if_neg hplace
    show p.contentAfter rest place (p.overwrite place content report) = content
    rw [hfirst]
    exact ih hrest

theorem contentAfter_of_forall_some {text : Text}
    (h : ∀ report ∈ reports, p.place report.path = .ok place → report.status.content? = some text)
    (hsome : ∃ report ∈ reports, p.place report.path = .ok place) :
    p.contentAfter reports place content = Utf8.encodeFile text := by
  induction reports generalizing content with
  | nil => simp at hsome
  | cons report rest ih =>
    obtain ⟨hreport, hrest⟩ := List.forall_mem_cons.mp h
    show p.contentAfter rest place (p.overwrite place content report) = Utf8.encodeFile text
    -- what the last report on the file writes is what stays
    by_cases hlast : ∃ report ∈ rest, p.place report.path = .ok place
    · exact ih hrest hlast
    · have hplace : p.place report.path = .ok place := by
        obtain ⟨found, hmem, hfound⟩ := hsome
        rcases List.mem_cons.mp hmem with rfl | hmem
        · exact hfound
        · exact absurd ⟨found, hmem, hfound⟩ hlast
      rw [contentAfter_of_forall_none fun found hmem hfound => absurd ⟨found, hmem, hfound⟩ hlast]
      unfold overwrite
      rw [hreport hplace]
      exact if_pos hplace

end Write

/-! ## What is read then -/

section Read

variable {p : Project} {store : Store} {reports : List DocumentReport}

theorem decode?_of_report? {report : DocumentReport} {place : Path} {content : ByteArray}
    (h : p.report? store report.path = some report) (hplace : p.place report.path = .ok place)
    (hentry : p.tree.entry? place = some (.file content)) : Utf8.decode? content = some report.text := by
  have hread := (report?_eq_some_iff.mp h).2.1
  unfold Project.place at hplace
  unfold Tree.readText Tree.readBytes at hread
  rw [hplace] at hread
  dsimp only at hread
  rw [hentry] at hread
  dsimp only at hread
  cases hdecode : Utf8.decode? content with
  | none => simp [hdecode] at hread
  | some text =>
    rw [hdecode] at hread
    rw [Except.ok.inj hread]

/-- Reports on the same file are about the same text, so they say the same. -/
theorem status_eq_of_place_eq (hreports : ∀ report ∈ reports, p.report? store report.path = some report) {place : Path}
    {content : ByteArray} (hentry : p.tree.entry? place = some (.file content)) {report other : DocumentReport}
    (hreport : report ∈ reports) (hplace : p.place report.path = .ok place) (hother : other ∈ reports)
    (hthere : p.place other.path = .ok place) : other.status = report.status := by
  have htext := decode?_of_report? (hreports report hreport) hplace hentry
  have hequal := Option.some.inj (htext.symm.trans (decode?_of_report? (hreports other hother) hthere hentry))
  rw [(report?_eq_some_iff.mp (hreports other hother)).2.2, (report?_eq_some_iff.mp (hreports report hreport)).2.2,
    hequal]

/-- Where a text lies on which there is a report, the text that it should have is written. -/
theorem decode?_contentAfter {place : Path} {content : ByteArray}
    (hreports : ∀ report ∈ reports, p.report? store report.path = some report)
    (hentry : p.tree.entry? place = some (.file content)) {report : DocumentReport} (hreport : report ∈ reports)
    (hplace : p.place report.path = .ok place) :
    Utf8.decode? (p.contentAfter reports place content) = some (report.status.settledText report.text) := by
  have htext := decode?_of_report? (hreports report hreport) hplace hentry
  have hsame : ∀ other ∈ reports, p.place other.path = .ok place → other.status = report.status :=
    fun other hother hthere => status_eq_of_place_eq hreports hentry hreport hplace hother hthere
  unfold Document.Status.settledText
  cases hcontent : report.status.content? with
  | none => rw [contentAfter_of_forall_none fun other hother hthere => hsame other hother hthere ▸ hcontent, htext]; rfl
  | some text =>
    rw [contentAfter_of_forall_some (fun other hother hthere => hsame other hother hthere ▸ hcontent)
      ⟨report, hreport, hplace⟩, Utf8.decode?_encodeFile]
    rfl

/-- **Each document holds the text that it should have** after all reports were written. -/
theorem readText_write {t : Tree} (hrevision : Tree.IsRevision (p.contentAfter reports) p.tree t)
    (hreports : ∀ report ∈ reports, p.report? store report.path = some report) {path : Path}
    (hpath : ∀ report, p.report? store path = some report → report ∈ reports) :
    t.readText p.directory (p.within path.text) =
      (p.tree.readText p.directory (p.within path.text)).map fun text =>
        (Document.sync store .fresh text).1.settledText text := by
  cases hplace : p.tree.locate p.directory (p.within path.text) with
  | error fault =>
    simp [Tree.readText, Tree.readBytes, hrevision.liesAlike.locate_eq, hplace, Except.map]
  | ok place =>
    unfold Tree.readText
    rw [hrevision.liesAlike.readBytes_eq hplace]
    unfold Tree.readBytes
    rw [hplace]
    dsimp only
    cases hentry : p.tree.entry? place with
    | none => rfl
    | some entry =>
      cases entry with
      | directory => rfl
      | link target => rfl
      | file content =>
        dsimp only [Except.map]
        cases hdecode : Utf8.decode? content with
        | none =>
          -- there is no report on a file that is no text, so it is not written
          have hkept : p.contentAfter reports place content = content :=
            contentAfter_of_forall_none fun report hreport hthere =>
              nomatch hdecode.symm.trans (decode?_of_report? (hreports report hreport) hthere hentry)
          rw [hkept, hdecode]
        | some text =>
          have hreport : p.report? store path = some ⟨path, text, (Document.sync store .fresh text).1⟩ := by
            simp [report?, Tree.readText, Tree.readBytes, hplace, hentry, hdecode]
          rw [decode?_contentAfter hreports hentry (hpath _ hreport) hplace]

end Read

/-! ## What is found then -/

section Found

variable {p : Project} {paths : List Path} {selection : Selection} {start place there : Path} {path : Path}

/-- A document lies where the search came by it. -/
theorem place_eq_of_leadsToDocument {maxSize : Nat} (hstart : p.tree.directory? p.directory p.root = some start)
    (h : Discovery.LeadsToDocument p.tree start maxSize path place) (hthere : p.place path = .ok there) :
    there = place := by
  -- the written path leads through the root of the project, where the search begins
  have hroot := Tree.Leads.of_locate (Tree.directory?_eq_some_iff.mp hstart).1
  have hleads := Tree.Leads.of_joinWritten (Path.isAbsolute_text h.names) hroot (Tree.Leads.of_locate hthere)
  rw [Path.steps_text h.nonempty h.names] at hleads
  exact hleads.unique h.leads

/-- What was too large to be a document is not written. -/
theorem contentAfter_of_large (hdocuments : Discovery.documents p.tree p.directory p.root selection = .ok paths)
    {reports : List DocumentReport} (hreports : ∀ report ∈ reports, report.path ∈ paths) {content : ByteArray}
    (hentry : p.tree.entry? place = some (.file content)) (hlarge : selection.maxSize < content.size) :
    p.contentAfter reports place content = content := by
  refine contentAfter_of_forall_none fun report hreport hthere => absurd hlarge (Nat.not_lt.mpr ?_)
  obtain ⟨start, found, hstart, hfound⟩ := Discovery.exists_place_of_mem_documents hdocuments (hreports report hreport)
  obtain ⟨content', hentry', hsize⟩ := hfound.file
  rw [← place_eq_of_leadsToDocument hstart hfound hthere, hentry] at hentry'
  obtain rfl := Entry.file.inj (Option.some.inj hentry')
  exact hsize

end Found

/-! ## A second run -/

/-- The written path names none of the documents. -/
def IsApart (p : Project) (reports : List DocumentReport) (directory : Path) (written : Text) : Prop :=
  ∀ report ∈ reports, ∀ place, p.place report.path = .ok place → p.tree.locate directory written ≠ .ok place

/-- No document is read for another purpose: none of them is the settings file, the ignore file, or a source that an
excerpt of a document is taken from. -/
structure KeepsApart (p : Project) (settings : Settings) (reports : List DocumentReport) : Prop where
  settingsFile : ∀ file, p.settingsFile? = some file → p.IsApart reports p.directory (p.within file)
  ignoreFile : ∀ start, p.tree.directory? p.directory p.root = some start →
    p.IsApart reports start ".gitignore".toList
  sources : ∀ report ∈ reports, ∀ pieces, IsDivision 0 (Text.lines report.text) pieces →
    ∀ opening old closing, Piece.region opening old closing ∈ pieces →
    ∀ source, Engine.fresh.readFor? (p.store settings) opening.trimmed = some source →
      p.IsApart reports p.directory (Path.joinWritten (p.sourceRoot settings) source)

section Again

variable {p : Project} {settings : Settings} {reports : List DocumentReport} {t : Tree}

theorem IsApart.keeps {directory : Path} {written : Text} (h : p.IsApart reports directory written) :
    Tree.IsRevision.Keeps (p.contentAfter reports) p.tree directory written :=
  fun _ hplace _ => contentAfter_of_forall_none fun report hreport hthere =>
    absurd hplace (h report hreport _ hthere)

theorem settings_eq_of_keepsApart (hrevision : Tree.IsRevision (p.contentAfter reports) p.tree t)
    (hapart : p.KeepsApart settings reports) : Project.settings { p with tree := t } = p.settings := by
  have hfile : settingsFile? { p with tree := t } = p.settingsFile? := by
    unfold settingsFile?
    exact congrArg (List.find? · _) (funext fun place => hrevision.liesAlike.hasFile_eq p.directory (p.within place))
  unfold Project.settings ownSettings
  rw [hfile]
  cases hplace : p.settingsFile? with
  | none => rfl
  | some file =>
    have hread := hrevision.liesAlike.readText_eq_of_keeps (hapart.settingsFile file hplace).keeps
    dsimp only
    rw [show within { p with tree := t } file = p.within file from rfl, hread]

theorem alike_store (hrevision : Tree.IsRevision (p.contentAfter reports) p.tree t) (settings : Settings) :
    (p.store settings).Alike (Project.store { p with tree := t } settings) where
  files := hrevision.fileExists_store_eq p.directory (p.sourceRoot settings)
  directories := hrevision.directoryExists_store_eq p.directory (p.sourceRoot settings)
  subdirectories := hrevision.subdirectories_store_eq p.directory (p.sourceRoot settings)

/-- The directives of the documents get the answers that they got. -/
theorem answersAlike_of_keepsApart (hrevision : Tree.IsRevision (p.contentAfter reports) p.tree t)
    (hapart : p.KeepsApart settings reports) {report : DocumentReport} (hreport : report ∈ reports) :
    AnswersAlike (Engine.fresh.answer (p.store settings))
      (Engine.fresh.answer (Project.store { p with tree := t } settings)) report.text := by
  intro pieces hdivision opening old closing hregion
  refine Engine.answer_eq_of_alike (alike_store hrevision settings) fun source hsource => ?_
  exact hrevision.read_store_eq (hapart.sources report hreport pieces hdivision opening old closing hregion source
    hsource).keeps

/-- The report on a document after all documents were written. -/
theorem report?_write {store store' : Store} (hrevision : Tree.IsRevision (p.contentAfter reports) p.tree t)
    (hreports : ∀ report ∈ reports, p.report? store report.path = some report) {path : Path}
    (hpath : ∀ report, p.report? store path = some report → report ∈ reports) :
    report? { p with tree := t } store' path = (p.report? store path).map fun report =>
      ⟨path, report.status.settledText report.text,
        (Document.sync store' .fresh (report.status.settledText report.text)).1⟩ := by
  have hread := readText_write hrevision hreports hpath
  unfold report?
  rw [show within { p with tree := t } path.text = p.within path.text from rfl, hread]
  cases p.tree.readText p.directory (p.within path.text) <;> rfl

/-- The second run gets over the documents that the first one got over. -/
theorem isReportable_write {store store' : Store} (hrevision : Tree.IsRevision (p.contentAfter reports) p.tree t)
    (hreports : ∀ report ∈ reports, p.report? store report.path = some report) {path : Path}
    (hpath : ∀ report, p.report? store path = some report → report ∈ reports)
    (hsettled : ∀ report ∈ reports, (Document.sync store' .fresh (report.status.settledText report.text)).1.isSettled)
    (h : p.IsReportable store path) : IsReportable { p with tree := t } store' path := by
  have hread := readText_write hrevision hreports hpath
  rcases h with hnot | ⟨text, htext, -⟩
  · rw [hnot] at hread
    exact Or.inl hread
  · rw [htext] at hread
    have hreport : p.report? store path = some ⟨path, text, (Document.sync store .fresh text).1⟩ := by
      rw [report?, htext]
    exact Or.inr ⟨_, hread, Document.Status.noOutline?_of_isSettled (hsettled _ (hpath _ hreport))⟩

/-- **The reports on the documents after an update**, where no document is read for another purpose and no excerpt
closes its region: the settings hold as before, the documents are among those that were found, and each of them is
settled. -/
theorem sync_write (hsync : p.sync settings = .ok reports) (hfailed : ∀ report ∈ reports, ¬ report.status.isFailed)
    (hapart : p.KeepsApart settings reports)
    (hopen : ∀ report ∈ reports, RendersNoEndMarker (Engine.fresh.answer (p.store settings)) report.text) :
    (p.write reports).settings = p.settings ∧
      ∃ reports', (p.write reports).sync settings = .ok reports' ∧ ∀ report' ∈ reports', report'.status.isSettled ∧
        ∃ report ∈ reports, report'.path = report.path ∧ report'.text = report.status.settledText report.text := by
  obtain ⟨selection, paths, hselection, hdocuments, hreportable, hall⟩ := sync_eq_ok_iff.mp hsync
  obtain ⟨t, hwrite, hrevision⟩ := exists_write_eq p reports
  rw [hwrite]
  refine ⟨settings_eq_of_keepsApart hrevision hapart, ?_⟩
  have hpaths : ∀ report ∈ reports, report.path ∈ paths :=
    fun report hreport => (mem_filterMap_report?_iff.mp (hall ▸ hreport)).1
  have hreports : ∀ report ∈ reports, p.report? (p.store settings) report.path = some report :=
    fun report hreport => (mem_filterMap_report?_iff.mp (hall ▸ hreport)).2
  have hsettled : ∀ report ∈ reports, (Document.sync (Project.store { p with tree := t } settings) .fresh
      (report.status.settledText report.text)).1.isSettled := by
    intro report hreport
    have hstatus := (report?_eq_some_iff.mp (hreports report hreport)).2.2
    rw [hstatus]
    exact Document.isSettled_settledText (hstatus ▸ hfailed report hreport) (hopen report hreport)
      (answersAlike_of_keepsApart hrevision hapart hreport)
  -- the search can only miss what has become too large
  obtain ⟨paths', hdocuments', hsubset⟩ := Discovery.documents_revision hrevision
    (fun start hstart => (hapart.ignoreFile start hstart).keeps)
    (fun place content hentry hlarge => by rwa [contentAfter_of_large hdocuments hpaths hentry hlarge]) hdocuments
  have hfound : ∀ path ∈ paths', ∀ report, p.report? (p.store settings) path = some report → report ∈ reports := by
    intro path hpath report hreport
    rw [hall]
    exact List.mem_filterMap.mpr ⟨path, hsubset hpath, hreport⟩
  refine ⟨_, sync_eq_ok_iff.mpr ⟨selection, paths', hselection, hdocuments', ?_, rfl⟩, ?_⟩
  · intro path hpath
    exact isReportable_write hrevision hreports (hfound path hpath) hsettled (hreportable path (hsubset hpath))
  · intro report' hreport'
    obtain ⟨path, hpath, hagain⟩ := List.mem_filterMap.mp hreport'
    rw [report?_write hrevision hreports (hfound path hpath)] at hagain
    obtain ⟨report, hreport, rfl⟩ := Option.map_eq_some_iff.mp hagain
    have hmem := hfound path hpath report hreport
    exact ⟨hsettled report hmem, report, hmem, (report?_eq_some_iff.mp hreport).1.symm, rfl⟩

end Again

end Project

end Excerpt
