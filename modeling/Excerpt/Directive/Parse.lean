import Excerpt.Directive.Basic
import Excerpt.Directive.Error

/-!
Reading a directive from its line,
`<!-- begin-snippet: SOURCE NAME (importer:NAME?QUERY;formatter:NAME?QUERY) -->`.
-/

namespace Excerpt

namespace Directive

inductive ParameterKey where
  | importer
  | formatter
  deriving DecidableEq, Repr

/-- The key that the text names, in any case. -/
def ParameterKey.read? (s : Text) : Option ParameterKey :=
  if Text.eqIgnoreCase s "importer".toList then some .importer
  else if Text.eqIgnoreCase s "formatter".toList then some .formatter
  else none

/-- Reads the value of a parameter with the given key: a name, and a query behind the first `?`. -/
def parseChoice (key value : Text) : Except DirectiveError Choice :=
  match Text.splitFirst? (· = '?') value with
  | none => if value.isEmpty then .error (.missingValue key) else .ok ⟨value, none⟩
  | some (name, query) =>
    let name := Text.trim name
    let query := Text.trim query
    if query.isEmpty then .error (.missingQuery key)
    else if name.isEmpty then .error (.missingValue key)
    else .ok ⟨name, some query⟩

/-- Reads one parameter, `key:name` or `key:name?query`. -/
def parseParameter (s : Text) : Except DirectiveError (ParameterKey × Choice) :=
  match Text.splitFirst? (· = ':') s with
  | none => .error .malformedParameter
  | some (key, value) =>
    if key.isEmpty then .error .malformedParameter
    else
      let key := Text.trim key
      match parseChoice key (Text.trim value) with
      | .error e => .error e
      | .ok choice =>
        match ParameterKey.read? key with
        | none => .error (.unknownKey key)
        | some which => .ok (which, choice)

/-- The directive with a parameter's choice in place of an earlier one. -/
def choose (d : Directive) : ParameterKey × Choice → Directive
  | (.importer, choice) => { d with importer := some choice }
  | (.formatter, choice) => { d with formatter := some choice }

/-- Reads the parameters in turn; the first one that is wrong decides. -/
def parseParameters (d : Directive) : List Text → Except DirectiveError Directive
  | [] => .ok d
  | s :: rest =>
    match parseParameter (Text.trim s) with
    | .error e => .error e
    | .ok parameter => parseParameters (d.choose parameter) rest

/-- What stands between the brackets of a parameter list, which holds no further bracket. -/
def enclosed? (s : Text) : Option Text :=
  match s with
  | '(' :: rest =>
    match rest.getLast? with
    | some ')' =>
      let inner := rest.dropLast
      if inner.any (fun c => c = '(' || c = ')') then none else some inner
    | _ => none
  | _ => none

/-- Splits the text behind the source into the name and what follows it, trimmed. -/
def splitName (s : Text) : Text × Text :=
  let inName := fun c => ! (c = ' ' || c = '(')
  (s.takeWhile inName, Text.trim (s.dropWhile inName))

/-- Splits the trimmed text between the markers into the source and what follows the space behind it. -/
def splitSource (s : Text) : Text × Text := (Text.splitFirst? (· = ' ') s).getD (s, [])

/-- What stands before the closing of the comment, if the text ends with it. -/
def dropClosing? (s : Text) : Option Text :=
  (commentClose.reverse.isPrefixOf? s.reverse).map List.reverse

def parseBody (s : Text) : Except DirectiveError Directive :=
  let (source, afterSource) := splitSource s
  let (name, afterName) := splitName (Text.trimStart afterSource)
  if name.isEmpty then .error .missingName
  else if afterName.isEmpty then .ok (plain source name)
  else
    match enclosed? afterName with
    | none => .error .parametersNotEnclosed
    | some inner => parseParameters (plain source name) (inner.splitOn ';')

/-- Reads a directive from a line without white space at its ends. -/
def parse (line : Text) : Except DirectiveError Directive :=
  match Text.dropPrefixIgnoreCase? beginMarker line with
  | none => .error .missingOpening
  | some rest =>
    match dropClosing? rest with
    | none => .error .missingClosing
    | some body =>
      -- the space that ends the source may be the one in front of the closing
      match Text.splitFirst? (· = ' ') rest with
      | none => .error .missingSource
      | some (source, _) =>
        if source.isEmpty then .error .missingSource else parseBody (Text.trim body)

end Directive

end Excerpt
