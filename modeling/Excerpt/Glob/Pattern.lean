import Excerpt.Diagnostic

/-!
Glob patterns and how they are written. `?` and `*` stand for one and for any number of bytes, `**` for
whole directories where it stands alone between slashes, `[a-z]` for one character of a class, and
`\x7ba,b\x7d` for one of several patterns; a backslash takes the next character as it is.
-/

namespace Excerpt

/-- A piece of a glob pattern. The three pieces for whole directories are those that stand at the
start of a pattern, at its end, and between slashes. -/
inductive GlobItem where
  | literal (c : Char)
  | anyOne
  | anyRun
  | directoriesFirst
  | directoriesLast
  | directoriesBetween
  | charClass (negated : Bool) (ranges : List (Char × Char))
  | alternatives (branches : List (List GlobItem))

inductive GlobError where
  | unclosedClass
  | invalidRange (lo hi : Char)
  | unclosedAlternatives
  | unopenedAlternatives
  | danglingEscape
  deriving DecidableEq, Repr

def GlobError.message : GlobError → String
  | unclosedClass => "unclosed character class; missing ']'"
  | invalidRange lo hi => "invalid range; '" ++ shown [lo] ++ "' > '" ++ shown [hi] ++ "'"
  | unclosedAlternatives =>
    "unclosed alternate group; missing '\x7d' (maybe escape '\x7b' with '[\x7b]'?)"
  | unopenedAlternatives =>
    "unopened alternate group; missing '\x7b' (maybe escape '\x7d' with '[\x7d]'?)"
  | danglingEscape => "dangling '\\'"

namespace Glob

/-- The ranges of a character class, the last one first, and whether a hyphen behind the last one waits
for its upper end. -/
structure ClassRanges where
  ranges : List (Char × Char)
  hyphen : Bool

namespace ClassRanges

/-- The class with one more character, which is the upper end of a range behind a hyphen. -/
def add (r : ClassRanges) (c : Char) : Except GlobError ClassRanges :=
  match r.hyphen, r.ranges with
  | true, (lo, _) :: ranges =>
    if c < lo then .error (.invalidRange lo c) else .ok ⟨(lo, c) :: ranges, false⟩
  | _, ranges => .ok ⟨(c, c) :: ranges, false⟩

/-- The ranges in the order in which they were written; a last hyphen stands for itself. -/
def finish (r : ClassRanges) : List (Char × Char) :=
  ((if r.hyphen then [('-', '-')] else []) ++ r.ranges).reverse

end ClassRanges

/-- Reads the ranges of a class up to its closing bracket, and the number of characters that they and
the bracket take; there is none where the bracket is missing. A closing bracket or a hyphen that comes
first stands for itself. -/
def readRanges (r : ClassRanges) : List Char → Except GlobError (Option (List (Char × Char) × Nat))
  | [] => .ok none
  | c :: s =>
    let first := r.ranges.isEmpty
    if c = ']' && ! first then .ok (some (r.finish, 1))
    else if c = '-' && ! first && ! r.hyphen then
      (readRanges { r with hyphen := true } s).map fun found => found.map fun (ranges, n) => (ranges, n + 1)
    else
      match r.add c with
      | .error e => .error e
      | .ok r => (readRanges r s).map fun found => found.map fun (ranges, n) => (ranges, n + 1)

/-- Reads a class behind its opening bracket, and the number of characters that it takes. -/
def readClass (s : Text) : Except GlobError (Option (GlobItem × Nat)) :=
  match s with
  | '!' :: s | '^' :: s =>
    (readRanges ⟨[], false⟩ s).map fun found => found.map fun (ranges, n) => (.charClass true ranges, n + 1)
  | s =>
    (readRanges ⟨[], false⟩ s).map fun found => found.map fun (ranges, n) => (.charClass false ranges, n)

/-- A group of alternatives that is being read: the pieces before it and its finished branches, each
with the last one first. -/
structure Group where
  before : List GlobItem
  branches : List (List GlobItem)

/-- What has been read of a pattern: the pieces of the current branch, the last one first, the groups
around it, the innermost first, the character before, and whether a class was found that is not closed,
after which brackets stand for themselves. -/
structure Reading where
  items : List GlobItem
  groups : List Group
  previous : Option Char
  unclosedClass : Bool

namespace Reading

/-- One more piece, written with `last` as its last character. -/
def push (r : Reading) (item : GlobItem) (last : Char) : Reading :=
  { r with items := item :: r.items, previous := some last }

/-- Two stars that stand for no directories. -/
def pushTwoRuns (r : Reading) : Reading := (r.push .anyRun '*').push .anyRun '*'

/-- Stars in place of a slash, or of what stands before them. The piece before them gives way, but if it
stands for directories already it remains. -/
def replaceLast (r : Reading) (item : GlobItem) (last : Char) : Reading :=
  match r.items with
  | .directoriesFirst :: _ | .directoriesLast :: _ => { r with previous := some last }
  | _ :: items => { r with items := item :: items, previous := some last }
  | [] => r.push item last

/-- Reads two stars, where `s` follows them; also the number of characters that they take behind them. -/
def pushStars (r : Reading) (s : Text) : Reading × Nat :=
  if r.items.isEmpty then
    match s with
    | [] => (r.push .directoriesFirst '*', 0)
    | '/' :: _ => (r.push .directoriesFirst '/', 1)
    | _ => (r.pushTwoRuns, 0)
  -- two stars stand for directories only behind a slash or at the start of an alternative
  else if r.previous ≠ some '/' &&
      (r.groups.isEmpty || (r.previous ≠ some ',' && r.previous ≠ some '\x7b')) then
    (r.pushTwoRuns, 0)
  else
    match s with
    | [] => (r.replaceLast .directoriesLast '*', 0)
    | '/' :: _ => (r.replaceLast .directoriesBetween '/', 1)
    | c :: _ =>
      if (c = ',' || c = '\x7d') && ! r.groups.isEmpty then (r.replaceLast .directoriesLast '*', 0)
      else (r.pushTwoRuns, 0)

def openGroup (r : Reading) : Reading :=
  { r with items := [], groups := ⟨r.items, []⟩ :: r.groups, previous := some '\x7b' }

/-- Begins the next alternative; outside groups a comma stands for itself. -/
def nextBranch (r : Reading) : Reading :=
  match r.groups with
  | [] => r.push (.literal ',') ','
  | g :: outer =>
    { r with items := [], groups := { g with branches := r.items.reverse :: g.branches } :: outer
             previous := some ',' }

def closeGroup (r : Reading) : Except GlobError Reading :=
  match r.groups with
  | [] => .error .unopenedAlternatives
  | g :: outer =>
    let group := GlobItem.alternatives (r.items.reverse :: g.branches).reverse
    .ok { r with items := group :: g.before, groups := outer, previous := some '\x7d' }

def finish (r : Reading) : Except GlobError (List GlobItem) :=
  if r.groups.isEmpty then .ok r.items.reverse else .error .unclosedAlternatives

end Reading

/-- Reads the rest of a pattern. With `lenient`, a bracket whose class is not closed stands for itself. -/
def readFrom (lenient : Bool) (r : Reading) (s : Text) : Except GlobError (List GlobItem) :=
  match s with
  | [] => r.finish
  | '?' :: s => readFrom lenient (r.push .anyOne '?') s
  | '*' :: '*' :: s =>
    let (r, n) := r.pushStars s
    readFrom lenient r (s.drop n)
  | '*' :: s => readFrom lenient (r.push .anyRun '*') s
  | '\x7b' :: s => readFrom lenient r.openGroup s
  | '\x7d' :: s =>
    match r.closeGroup with
    | .error e => .error e
    | .ok r => readFrom lenient r s
  | ',' :: s => readFrom lenient r.nextBranch s
  | '\\' :: s =>
    match s with
    | [] => .error .danglingEscape
    | c :: s => readFrom lenient (r.push (.literal c) c) s
  | '[' :: s =>
    if r.unclosedClass then readFrom lenient (r.push (.literal '[') '[') s
    else
      match readClass s with
      | .error e => .error e
      | .ok (some (item, n)) => readFrom lenient (r.push item ']') (s.drop n)
      | .ok none =>
        if lenient then
          readFrom lenient { r.push (.literal '[') '[' with unclosedClass := true } s
        else .error .unclosedClass
  | c :: s => readFrom lenient (r.push (.literal c) c) s
termination_by s.length
decreasing_by all_goals simp; try omega

def read (lenient : Bool) (s : Text) : Except GlobError (List GlobItem) :=
  readFrom lenient ⟨[], [], none, false⟩ s

end Glob

end Excerpt
