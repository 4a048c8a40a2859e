import Excerpt.Number.Integer
import Excerpt.Settings.Basic
import Excerpt.Toml.Read

/-!
Reading settings from TOML. Keys that mean nothing here are passed over, and a missing key leaves its
setting at the default.
-/

namespace Excerpt.Settings

/-- What `read?` makes of the value of a key, or `default` where the key is missing. -/
def setting? (t : Toml.Table) (key : String) (default : α) (read? : Toml.Value → Option α) : Option α :=
  match t.lookup key.toList with
  | none => some default
  | some value => read? value

/-- Reads a text. -/
def text? : Toml.Value → Option Text
  | .string s => some s
  | _ => none

/-- Reads a number of bytes. -/
def size? : Toml.Value → Option Nat
  | .integer n => if (IntegerRange.unsigned 64).holds n then some n.toNat else none
  | _ => none

/-- Reads a choice between two. -/
def boolean? : Toml.Value → Option Bool
  | .boolean b => some b
  | _ => none

/-- Reads a list of texts. -/
def texts? : Toml.Value → Option (List Text)
  | .array _ items => items.mapM text?
  | _ => none

/-- Reads patterns: a table with a list of them, or an array that begins with the list. -/
def patterns? : Toml.Value → Option (List Text)
  | .table _ t => setting? t "patterns" [] texts?
  | .array _ [] => some []
  | .array _ (first :: _) => texts? first
  | _ => none

/-- Reads the settings that a table holds. -/
def ofTable? (t : Toml.Table) : Option Settings := do
  let sourceRoot ← setting? t "source_root" none fun v => (text? v).map some
  let documents ← setting? t "documents" [] patterns?
  let exclude ← setting? t "exclude" [] patterns?
  let maxSize ← setting? t "max_file_size" defaultMaxSize size?
  let disableIgnoreFile ← setting? t "disable_gitignore" false boolean?
  return ⟨sourceRoot, documents, exclude, maxSize, disableIgnoreFile⟩

/-- Reads settings. -/
def parse (s : Text) : Except SettingsError Settings :=
  match (Toml.read? s).bind ofTable? with
  | some settings => .ok settings
  | none => .error .malformed

end Excerpt.Settings
