import Excerpt.CommandLine.Arguments
import Excerpt.Diff.Lines
import Excerpt.Project
import Excerpt.Text.JsonString

/-!
The command line: it updates or checks the documents of a project and says what became of each.
-/

namespace Excerpt.CommandLine

/-- What a run leaves behind: its exit code and what it has written to the two outputs. -/
structure Outcome where
  exit : Nat
  output : String
  errors : String
  deriving DecidableEq, Repr

/-! ## Colours -/

inductive Colour where
  | red
  | green
  | yellow
  deriving DecidableEq, Repr

/-- The number by which terminals know the colour. -/
def Colour.code : Colour → String
  | red => "31"
  | green => "32"
  | yellow => "33"

/-- The words in a colour, unless everything is to be plain. -/
def paint (plain : Bool) (colour : Colour) (words : String) : String :=
  if plain then words else "\x1b[" ++ colour.code ++ "m" ++ words ++ "\x1b[39m"

/-! ## What is said about documents -/

/-- The line about a document: its path and the words for what became of it. -/
def statusLine (report : DocumentReport) (words : String) : String :=
  shown report.path.text ++ ": " ++ words ++ "\n"

/-- The words for what became of a document, where `updated` are those for one whose text changes. -/
def statusWords (plain : Bool) (updated : String) : Document.Status → String
  | .updated _ => updated
  | .noChanges => "No changes"
  | .noExcerpts => "No snippets"
  | .failed _ => paint plain .red "Failed"

def failureLines : Document.Status → String
  | .failed failures =>
    let message := (LineFailure.diagnostic failures).message
    String.join ((Text.lines message.toList).map fun line => "  " ++ shown line.text ++ "\n")
  | _ => ""

/-- A line of the difference between a document and what it should be. -/
def changeLine (plain : Bool) : Diff.Change Text → String
  | .keep line => "   " ++ shown (Diff.ended line)
  | .delete line => "  " ++ paint plain .red ("-" ++ shown (Diff.ended line))
  | .insert line => "  " ++ paint plain .green ("+" ++ shown (Diff.ended line))

/-- The difference between a document and what it should be, if there is one. -/
def difference (plain : Bool) (report : DocumentReport) : String :=
  match report.status with
  | .updated content => String.join ((Diff.lineChanges report.text content).map (changeLine plain))
  | _ => ""

def checkSummary (failed stale : Nat) : String :=
  let part (n : Nat) (words : String) : List String :=
    if n = 0 then [] else [shown (digits n) ++ " document(s) " ++ words]
  "Check failed: " ++ " and ".intercalate (part failed "failed" ++ part stale "are out of date") ++
    ". Run `snippet-link update` to fix.\n"

def reportJson (report : DocumentReport) : String :=
  let quote (words : String) : String := shown (Text.jsonString words.toList)
  let status (word : String) : String := ",\"status\":" ++ quote word
  let fields :=
    match report.status with
    | .updated _ => status "stale"
    | .noChanges => status "up-to-date"
    | .noExcerpts => status "no-snippets"
    | .failed failures => status "failed" ++ ",\"error\":" ++ quote (LineFailure.diagnostic failures).message
  "\x7b\"file\":" ++ quote (shown report.path.text) ++ fields ++ "\x7d"

def checkJson (passed : Bool) (reports : List DocumentReport) : String :=
  "\x7b\"ok\":" ++ (if passed then "true" else "false") ++ ",\"documents\":[" ++
    ",".intercalate (reports.map reportJson) ++ "]\x7d\n"

/-! ## Runs -/

/-- The exit code of a run that found nothing to complain about, or something. -/
def exitCode (passed : Bool) : Nat := if passed then 0 else 1

def failedCount (reports : List DocumentReport) : Nat := reports.countP fun report => report.status.isFailed

/-- Says what became of the documents of a project, and writes those that change unless this is a dry
run. -/
def update (plain dryRun : Bool) (p : Project) (reports : List DocumentReport) : Outcome × Project :=
  let updated := paint plain .green (if dryRun then "Would update" else "Updated")
  let lines := reports.map fun report =>
    statusLine report (statusWords plain updated report.status) ++ failureLines report.status
  let count := shown (digits (Project.updated reports).length)
  let summary :=
    if dryRun then "Dry run: would update " ++ count ++ " document(s).\n"
    else "Updated " ++ count ++ " document(s).\n"
  (⟨exitCode (failedCount reports = 0), String.join lines ++ summary, ""⟩,
    if dryRun then p else p.write reports)

/-- Says which documents of a project are not as they should be. -/
def check (plain diff : Bool) (format : Format) (reports : List DocumentReport) : Outcome :=
  let failed := failedCount reports
  let stale := (Project.updated reports).length
  let passed : Bool := failed = 0 && stale = 0
  match format with
  | .json => ⟨exitCode passed, checkJson passed reports, ""⟩
  | .text =>
    let words := paint plain .yellow "Stale"
    let lines := reports.map fun report =>
      statusLine report (statusWords plain words report.status) ++ failureLines report.status
    let differences := if diff then reports.map (difference plain) else []
    ⟨exitCode passed,
      String.join lines ++ (if passed then "Check passed: all snippets are up to date.\n" else ""),
      String.join differences ++ (if passed then "" else checkSummary failed stale)⟩

/-- What a run leaves behind that came to nothing. -/
def Outcome.ofError (e : ProjectError) : Outcome :=
  let d := e.diagnostic
  let help := (d.help.map fun help => "help: " ++ help ++ "\n").getD ""
  let exit :=
    match e with
    | .noOutline _ => 101
    | _ => 2
  ⟨exit, "", d.code ++ ": " ++ d.message ++ "\n" ++ help⟩

def perform (tree : Tree) (directory : Path) (plain : Bool) (request : Request) : Outcome × Tree :=
  let p : Project := ⟨tree, directory, request.path.getD []⟩
  let plain := plain || request.plain
  match p.settings.bind p.sync with
  | .error e => (.ofError e, tree)
  | .ok reports =>
    match request.command with
    | .update dryRun _ =>
      let (outcome, p) := update plain dryRun p reports
      (outcome, p.tree)
    | .check diff format => (check plain diff format reports, tree)

def usage : String :=
  "Usage: snippet-link [--path DIR] [--verbose] [--no-color] [COMMAND]\n\n" ++
    "Commands:\n" ++
    "  update [--dry-run] [--watch]          Update the managed regions of every document\n" ++
    "  check [--diff] [--format text|json]   Check that every managed region is up to date\n"

/-- A run with some arguments in a directory of a tree; what it writes is plain if `plain` or the
arguments say so. Also the tree afterwards. -/
def run (tree : Tree) (directory : Path) (plain : Bool) (arguments : List Text) : Outcome × Tree :=
  match Reading.ofArguments arguments with
  | .request request => perform tree directory plain request
  | .version => (⟨0, "snippet_link_cli 0.1.0\n", ""⟩, tree)
  | .help => (⟨0, usage, ""⟩, tree)
  | .refused => (⟨2, "", usage⟩, tree)

end Excerpt.CommandLine
