import Excerpt.Project
import Excerpt.Proofs.Discovery.Documents
import Excerpt.Proofs.Document.Independence

/-!
# Excerpt — the reports on documents

One engine processes all documents of a project, and each of them has the report that it has alone. So the reports are
those on the documents that are texts, in the order of their paths, and there are any unless a file cannot be read or
a source without an outline is asked for.

* **`Project.report?`**, **`Project.IsReportable`** — the report on one document, and that it ends nothing.
* **`Project.syncEach_eq_ok_iff`** — all reports, told one by one.
* **`Project.sync_eq_ok_iff`** — the reports on what is found in the project.
-/

namespace Excerpt

namespace Project

/-- The report on a document, if it is a text. -/
def report? (p : Project) (store : Store) (path : Path) : Option DocumentReport :=
  match p.tree.readText p.directory (p.within path.text) with
  | .ok text => some ⟨path, text, (Document.sync store .fresh text).1⟩
  | .error _ => none

/-- The run goes on behind the document: it is no text, or no source without an outline is asked for in it. -/
def IsReportable (p : Project) (store : Store) (path : Path) : Prop :=
  p.tree.readText p.directory (p.within path.text) = .error .notText ∨
    ∃ text, p.tree.readText p.directory (p.within path.text) = .ok text ∧
      (Document.sync store .fresh text).1.noOutline? = none

variable {p : Project} {store : Store}

theorem report?_eq_some_iff {path : Path} {report : DocumentReport} :
    p.report? store path = some report ↔
      report.path = path ∧ p.tree.readText p.directory (p.within path.text) = .ok report.text ∧
        report.status = (Document.sync store .fresh report.text).1 := by
  obtain ⟨path', text, status⟩ := report
  unfold report?
  cases hread : p.tree.readText p.directory (p.within path.text) with
  | error fault => simp
  | ok found =>
    simp only [Option.some.injEq, DocumentReport.mk.injEq, Except.ok.injEq]
    constructor
    · rintro ⟨rfl, rfl, rfl⟩
      exact ⟨rfl, rfl, rfl⟩
    · rintro ⟨rfl, rfl, rfl⟩
      exact ⟨rfl, rfl, rfl⟩

theorem mem_filterMap_report?_iff {paths : List Path} {report : DocumentReport} :
    report ∈ paths.filterMap (p.report? store) ↔ report.path ∈ paths ∧ p.report? store report.path = some report := by
  rw [List.mem_filterMap]
  constructor
  · rintro ⟨path, hpath, hreport⟩
    obtain rfl := (report?_eq_some_iff.mp hreport).1
    exact ⟨hpath, hreport⟩
  · rintro ⟨hpath, hreport⟩
    exact ⟨report.path, hpath, hreport⟩

/-- **All reports, told one by one.** Induction on the paths; each document finds the view of a fresh engine. -/
theorem syncEach_eq_ok_iff {engine : Engine} (hview : engine.view store = Engine.fresh.view store) {paths : List Path}
    {reports : List DocumentReport} :
    p.syncEach store engine paths = .ok reports ↔
      (∀ path ∈ paths, p.IsReportable store path) ∧ reports = paths.filterMap (p.report? store) := by
  induction paths generalizing engine reports with
  | nil => simp [syncEach, eq_comm]
  | cons path rest ih =>
    rw [List.forall_mem_cons, List.filterMap_cons, syncEach]
    cases hread : p.tree.readText p.directory (p.within path.text) with
    | error fault =>
      have hnone : p.report? store path = none := by simp [report?, hread]
      have hreportable : p.IsReportable store path ↔ fault = .notText := by simp [IsReportable, hread]
      rw [hnone, hreportable]
      by_cases hfault : fault = .notText
      · subst hfault
        simpa using ih hview
      · cases fault <;> simp_all
    | ok text =>
      obtain ⟨asked, hasked⟩ := Document.exists_sync_eq store Engine.fresh text
      have hnext : (engine.renderAll store asked).view store = Engine.fresh.view store :=
        (Engine.view_renderAll store engine asked).trans hview
      have hsome : p.report? store path = some ⟨path, text, (Document.sync store .fresh text).1⟩ := by
        simp [report?, hread]
      have hreportable : p.IsReportable store path ↔ (Document.sync store .fresh text).1.noOutline? = none := by
        simp [IsReportable, hread]
      rw [hsome, hreportable]
      dsimp only
      rw [hasked engine hview]
      dsimp only
      cases hnone : (Document.sync store .fresh text).1.noOutline? with
      | some source => simp
      | none =>
        have hrest := @ih (engine.renderAll store asked) hnext
        -- the documents behind it end the run, or are reported on
        cases hsync : p.syncEach store (engine.renderAll store asked) rest with
        | error e =>
          have hnot : ¬ ∀ path ∈ rest, p.IsReportable store path :=
            fun hall => nomatch hsync.symm.trans (hrest.mpr ⟨hall, rfl⟩)
          simp [Except.map, hnot]
        | ok others =>
          obtain ⟨hall, rfl⟩ := hrest.mp hsync
          constructor
          · intro h
            exact ⟨⟨rfl, hall⟩, (Except.ok.inj h).symm⟩
          · rintro ⟨-, rfl⟩
            rfl

/-- **The reports on what is found in the project.** -/
theorem sync_eq_ok_iff {settings : Settings} {reports : List DocumentReport} :
    p.sync settings = .ok reports ↔
      ∃ selection paths, Selection.ofSettings settings = .ok selection ∧
        Discovery.documents p.tree p.directory p.root selection = .ok paths ∧
        (∀ path ∈ paths, p.IsReportable (p.store settings) path) ∧
        reports = paths.filterMap (p.report? (p.store settings)) := by
  unfold sync
  cases hselection : Selection.ofSettings settings with
  | error e => simp [Except.mapError, bind, Except.bind]
  | ok selection =>
    cases hpaths : Discovery.documents p.tree p.directory p.root selection with
    | error e => simp [Except.mapError, bind, Except.bind, hpaths]
    | ok paths =>
      simp only [Except.mapError, bind, Except.bind, hpaths]
      rw [syncEach_eq_ok_iff rfl]
      simp [hpaths]

end Project

end Excerpt
