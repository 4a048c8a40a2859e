import Excerpt.Text.Basic

/-!
The arguments of the command line. Switches come before or behind the command; those that both take are
given to the command first, and each may be given once before and once behind it.
-/

namespace Excerpt.CommandLine

inductive Format where
  | text
  | json
  deriving DecidableEq, Repr

/-- What is to be done with the documents. -/
inductive Command where
  | update (dryRun watch : Bool)
  | check (diff : Bool) (format : Format)
  deriving DecidableEq, Repr

/-- What the arguments ask for. -/
structure Request where
  command : Command
  path : Option Text
  verbose : Bool
  plain : Bool
  deriving DecidableEq, Repr

/-- What arguments come to: a request, one of two texts that are only shown, or nothing that makes
sense. -/
inductive Reading where
  | request (request : Request)
  | version
  | help
  | refused
  deriving DecidableEq, Repr

inductive Switch where
  | path
  | verbose
  | plain
  | version
  | help
  | dryRun
  | watch
  | diff
  | format
  deriving DecidableEq, Repr

/-- Where a switch stands: before the command, or behind one of the two. -/
inductive Level where
  | before
  | update
  | check
  deriving DecidableEq, Repr

namespace Switch

def hasValue (switch : Switch) : Bool := switch = path || switch = format

/-- The switches that may stand somewhere, by their long names. -/
def longNames : Level → List (String × Switch)
  | .before =>
    [("path", path), ("verbose", verbose), ("no-color", plain), ("help", help), ("version", version)]
  | .update =>
    [("path", path), ("verbose", verbose), ("no-color", plain), ("help", help), ("dry-run", dryRun),
      ("watch", watch)]
  | .check =>
    [("path", path), ("verbose", verbose), ("no-color", plain), ("help", help), ("diff", diff),
      ("format", format)]

def ofLong? (level : Level) (name : Text) : Option Switch :=
  ((longNames level).find? fun entry => entry.1.toList = name).map Prod.snd

def ofShort? (level : Level) (c : Char) : Option Switch :=
  if c = 'p' then some path
  else if c = 'v' then some verbose
  else if c = 'h' then some help
  else if c = 'V' && level = .before then some version
  else none

/-- Whether the switch can have the value. -/
def admits (switch : Switch) (value : Text) : Bool :=
  match switch with
  | path => ! value.isEmpty
  | format => value = "text".toList || value = "json".toList
  | _ => value.isEmpty

end Switch

/-- The switches that were given at one level, with their values. -/
abbrev Given := List (Switch × Text)

/-- Notes that a switch was given. Switches that only show something end the reading. -/
def give (given : Given) (switch : Switch) (value : Text) : Except Reading Given :=
  if switch = .version then .error .version
  else if switch = .help then .error .help
  else if (given.lookup switch).isSome || ! switch.admits value then .error .refused
  else .ok ((switch, value) :: given)

/-- Whether the argument can be the value of the switch before it. -/
def isValue (argument : Text) : Bool := argument.head? ≠ some '-' || argument = ['-']

/-- Notes a switch that has no value attached: its value is the next argument, if it has one. Also the
number of arguments that this takes. -/
def giveNext (given : Given) (switch : Switch) (rest : List Text) : Except Reading (Given × Nat) :=
  if switch.hasValue then
    match rest with
    | [] => .error .refused
    | value :: _ => if isValue value then (give given switch value).map (·, 1) else .error .refused
  else (give given switch []).map (·, 0)

/-- Reads switches with short names in one argument. What follows one that has a value is that value,
perhaps behind an equals sign. -/
def giveShort (level : Level) (given : Given) (rest : List Text) : Text → Except Reading (Given × Nat)
  | [] => .ok (given, 0)
  | c :: more =>
    match Switch.ofShort? level c with
    | none => .error .refused
    | some switch =>
      if switch.hasValue && ! more.isEmpty then
        (give given switch (if more.head? = some '=' then more.tail else more)).map (·, 0)
      else if more.isEmpty then giveNext given switch rest
      else
        match give given switch [] with
        | .error reading => .error reading
        | .ok given => giveShort level given rest more

/-- Reads a switch with a long name, whose value may follow an equals sign. -/
def giveLong (level : Level) (given : Given) (rest : List Text) (argument : Text) :
    Except Reading (Given × Nat) :=
  let name := argument.takeWhile (· ≠ '=')
  match Switch.ofLong? level name, argument.dropWhile (· ≠ '=') with
  | none, _ => .error .refused
  | some switch, [] => giveNext given switch rest
  | some switch, _ :: value =>
    if switch.hasValue then (give given switch value).map (·, 0) else .error .refused

def commandLevel? (name : Text) : Option Level :=
  if name = "update".toList then some .update
  else if name = "check".toList then some .check
  else none

/-- Reads the switches of a level, and the command that ends them with the arguments behind it. -/
def readLevel (level : Level) (given : Given) (arguments : List Text) :
    Except Reading (Given × Option (Level × List Text)) :=
  match arguments with
  | [] => .ok (given, none)
  | argument :: rest =>
    match argument with
    | ['-', '-'] => if rest.isEmpty then .ok (given, none) else .error .refused
    | '-' :: '-' :: name =>
      match giveLong level given rest name with
      | .error reading => .error reading
      | .ok (given, n) => readLevel level given (rest.drop n)
    | '-' :: c :: names =>
      match giveShort level given rest (c :: names) with
      | .error reading => .error reading
      | .ok (given, n) => readLevel level given (rest.drop n)
    | name =>
      if level ≠ .before then .error .refused
      else
        match commandLevel? name with
        | some command => .ok (given, some (command, rest))
        | none => .error (if name = "help".toList then .help else .refused)
termination_by arguments.length
decreasing_by
  all_goals
    simp only [List.length_drop, List.length_cons]
    omega

def Given.has (given : Given) (switch : Switch) : Bool := (given.lookup switch).isSome

/-- The request that switches before and behind a command make. -/
def requestOf (before : Given) (level : Level) (behind : Given) : Request where
  command :=
    match level with
    | .check =>
      .check (behind.has .diff) (if behind.lookup .format = some "json".toList then .json else .text)
    | _ => .update (behind.has .dryRun) (behind.has .watch)
  path := (behind.lookup .path).or (before.lookup .path)
  verbose := behind.has .verbose || before.has .verbose
  plain := behind.has .plain || before.has .plain

/-- Reads the arguments. Without a command, documents are updated. -/
def Reading.ofArguments (arguments : List Text) : Reading :=
  match readLevel .before [] arguments with
  | .error reading => reading
  | .ok (before, none) => .request (requestOf before .update [])
  | .ok (before, some (level, rest)) =>
    match readLevel level [] rest with
    | .error reading => reading
    | .ok (behind, _) => .request (requestOf before level behind)

end Excerpt.CommandLine
