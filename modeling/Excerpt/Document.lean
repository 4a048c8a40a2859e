import Excerpt.Engine

/-!
Documents: texts with managed regions. A region goes from a line that opens it, outside of fenced code
blocks, to the next line that closes it; what stands between is replaced by what the directive asks for.
-/

namespace Excerpt

def Line.isFence (line : Line) : Bool := fence.isPrefixOf line.trimmed

def Line.opensRegion (line : Line) : Bool := Directive.isBeginMarker line.trimmed

def Line.closesRegion (line : Line) : Bool := Directive.isEndMarker line.trimmed

/-- What processing some lines gives: the text in their place, whether it holds a region, the failures
of directives, and the engine afterwards. -/
structure Processed where
  text : Text
  changed : Bool
  failures : List LineFailure
  engine : Engine
  deriving DecidableEq, Repr

namespace Processed

def keep (text : Text) (p : Processed) : Processed := { p with text := text ++ p.text }

def fail (line : Nat) (error : Error) (p : Processed) : Processed :=
  { p with failures := ⟨line, error⟩ :: p.failures }

/-- With a region in front that holds `rendered`: the text gets the terminator of the line that opens
the region, and the region's last line that of the line which closes it. -/
def replace (opening closing : Terminator) (rendered : Text) (p : Processed) : Processed :=
  { p with
    text := Text.withTerminator opening rendered ++ Directive.endMarker ++ closing.text ++ p.text
    changed := true }

end Processed

namespace Document

/-- Processes lines, of which the first one is line `number` of the document, counted from one, and
stands inside a code block if `fenced`. A directive that fails leaves its line and those behind it as
they are. -/
def processLines (store : Store) (engine : Engine) (fenced : Bool) (number : Nat) (lines : List Line) :
    Processed :=
  match lines with
  | [] => ⟨[], false, [], engine⟩
  | line :: rest =>
    if line.isFence then (processLines store engine (! fenced) (number + 1) rest).keep line.written
    else if fenced || ! line.opensRegion then
      (processLines store engine fenced (number + 1) rest).keep line.written
    else
      match engine.render store line.trimmed with
      | (.error e, engine) =>
        ((processLines store engine fenced (number + 1) rest).fail number e).keep line.written
      | (.ok rendered, engine) =>
        -- the closing line is looked for in the lines behind, fenced or not
        match rest.findIdx? Line.closesRegion with
        | none =>
          ((processLines store engine fenced (number + 1) rest).fail number
            (.missingEndMarker number)).keep line.written
        | some i =>
          let closing := (rest[i]?.map Line.terminator).getD .none
          -- the opening line, `i` old lines and the closing line lie behind us
          ((processLines store engine fenced (number + i + 2) (rest.drop (i + 1))).replace
            line.terminator closing rendered).keep line.written
termination_by lines.length

/-- Processes a document: its text with every region renewed and whether it has one, or all failures of
its directives. -/
def process (store : Store) (engine : Engine) (text : Text) :
    Except (List LineFailure) (Text × Bool) × Engine :=
  let p := processLines store engine false 1 (Text.lines text)
  (if p.failures.isEmpty then .ok (p.text, p.changed) else .error p.failures, p.engine)

/-- Processes a document and puts its text behind `output`, which failures leave as it is. -/
def processInto (store : Store) (engine : Engine) (text output : Text) :
    Except (List LineFailure) Bool × Text × Engine :=
  match process store engine text with
  | (.ok (written, changed), engine) => (.ok changed, output ++ written, engine)
  | (.error failures, engine) => (.error failures, output, engine)

inductive Status where
  | updated (content : Text)
  | noChanges
  | noExcerpts
  | failed (failures : List LineFailure)
  deriving DecidableEq, Repr

/-- Compares a document with what processing it gives. -/
def sync (store : Store) (engine : Engine) (text : Text) : Status × Engine :=
  match processInto store engine text [] with
  | (.error failures, _, engine) => (.failed failures, engine)
  | (.ok changed, output, engine) =>
    (if ! changed then .noExcerpts else if output = text then .noChanges else .updated output, engine)

end Document

end Excerpt
