import Excerpt.Options

/-!
Directives: what the opening line of a managed region asks for.
-/

namespace Excerpt

/-- An importer or formatter chosen by name, with the query that holds its options. -/
structure Choice where
  name : Text
  query : Option Text
  deriving DecidableEq, Repr

def Choice.options (choice : Choice) : Options :=
  (choice.query.map Options.parse).getD Options.empty

/-- The excerpt that a region shows: its source, its name there, and how to get and to write it where
the author chose that. -/
structure Directive where
  source : Text
  name : Text
  importer : Option Choice
  formatter : Option Choice
  deriving DecidableEq, Repr

namespace Directive

/-- A directive that leaves the importer and the formatter open. -/
def plain (source name : Text) : Directive := ⟨source, name, none, none⟩

def importerOptions (d : Directive) : Options := (d.importer.map Choice.options).getD Options.empty

def formatterOptions (d : Directive) : Options := (d.formatter.map Choice.options).getD Options.empty

/-- The start of a line that opens a managed region. -/
def beginMarker : Text := "<!-- begin-snippet: ".toList

/-- The line that closes a managed region. -/
def endMarker : Text := "<!-- end-snippet -->".toList

/-- The end of a line that opens a managed region. -/
def commentClose : Text := "-->".toList

def isBeginMarker (trimmed : Text) : Bool := Text.startsWithIgnoreCase beginMarker trimmed

def isEndMarker (trimmed : Text) : Bool := Text.eqIgnoreCase trimmed endMarker

end Directive

end Excerpt
