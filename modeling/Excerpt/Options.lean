import Excerpt.Diagnostic
import Excerpt.Number.Binary64
import Excerpt.Number.Integer
import Excerpt.Text.AsciiCase
import Excerpt.Text.Utf8

/-!
Options written behind a directive's importer or formatter, as in `cs?body-only=true&lang=c`. They
are read as a submitted web form is: pairs joined by `&`, a key and its value parted by the first
`=`, with `+` for a space and `%` before two hexadecimal digits for a byte. Keys are kept in lower
case, and of several values of one key the last holds.
-/

namespace Excerpt

/-- Options in the order of their keys, each key once. -/
structure Options where
  entries : List (Text × Text)
  deriving DecidableEq, Repr

/-- What the value of an option is read as. -/
inductive OptionType where
  | boolean
  | integer
  | number
  deriving DecidableEq, Repr

/-- The words for the type in a message. -/
def OptionType.name : OptionType → String
  | .boolean => "a boolean"
  | .integer => "an integer"
  | .number => "a number"

/-- An option whose value is not of the type that it is read as. -/
structure OptionError where
  key : Text
  value : Text
  expected : OptionType
  deriving DecidableEq, Repr

/-- What the author of the query is told. -/
def OptionError.diagnostic (e : OptionError) : Diagnostic :=
  ⟨"invalid value '" ++ shown e.value ++ "' for option '" ++ shown e.key ++ "': expected " ++
      e.expected.name,
    "snippet_link::invalid_option", none⟩

namespace Options

/-- No options. -/
def empty : Options := ⟨[]⟩

/-- The entries with `value` under `key`, in the order of the keys. -/
def insertEntry (key value : Text) : List (Text × Text) → List (Text × Text)
  | [] => [(key, value)]
  | (k, v) :: rest =>
    if key = k then (key, value) :: rest
    else if key < k then (key, value) :: (k, v) :: rest
    else (k, v) :: insertEntry key value rest

/-- The options with `value` under `key`, which is put in lower case. -/
def insert (options : Options) (key value : Text) : Options :=
  ⟨insertEntry (Text.lower key) value options.entries⟩

/-- The bytes of a form component, with each `+` a space and each `%` before two hexadecimal digits
the byte that they spell. -/
def componentBytes : Text → List UInt8
  | [] => []
  | '+' :: s => 0x20 :: componentBytes s
  | '%' :: hi :: lo :: s =>
    match hexDigit? hi, hexDigit? lo with
    | some a, some b => UInt8.ofNat (16 * a + b) :: componentBytes s
    -- a percent sign without two digits behind it stands for itself
    | _, _ => 0x25 :: componentBytes (hi :: lo :: s)
  | c :: s => String.utf8EncodeChar c ++ componentBytes s

/-- The text that a form component stands for. -/
def component (s : Text) : Text := Utf8.decodeLossy (componentBytes s)

/-- The key and the value that a piece of a query stands for: a piece without `=` is a key. -/
def pair (piece : Text) : Text × Text :=
  match Text.splitFirst? (· = '=') piece with
  | some (key, value) => (component key, component value)
  | none => (component piece, [])

/-- The options that a query stands for. Question marks at its start and empty pieces are skipped. -/
def parse (query : Text) : Options :=
  let pieces := (query.dropWhile (· = '?')).splitOn '&'
  (pieces.filter (! List.isEmpty ·)).foldl (fun options piece =>
    options.insert (pair piece).1 (pair piece).2) empty

/-- The value of a key, as it was written; the key's case does not matter. -/
def raw (options : Options) (key : Text) : Option Text := options.entries.lookup (Text.lower key)

/-- The value of a key as `read?` reads it, or `default` where the key is absent. -/
def get {α : Type} (read? : Text → Option α) (expected : OptionType) (options : Options) (key : Text)
    (default : α) : Except OptionError α :=
  match options.raw key with
  | none => .ok default
  | some value =>
    match read? value with
    | some x => .ok x
    | none => .error ⟨key, value, expected⟩

/-- The truth value that the text spells, in any case. -/
def readBoolean? (value : Text) : Option Bool :=
  if Text.eqIgnoreCase value "true".toList then some true
  else if Text.eqIgnoreCase value "false".toList then some false
  else none

/-- The truth value of a key. -/
def getBoolean : Options → Text → Bool → Except OptionError Bool := get readBoolean? .boolean

/-- The integer of a key, within a range; white space around it does not matter. -/
def getInteger (range : IntegerRange) : Options → Text → Int → Except OptionError Int :=
  get (fun value => range.read? (Text.trim value)) .integer

/-- The number of a key; white space around it does not matter. -/
def getNumber : Options → Text → Binary64 → Except OptionError Binary64 :=
  get (fun value => Binary64.read? (Text.trim value)) .number

/-- The text of a key, which is any value. -/
def getText (options : Options) (key default : Text) : Text := (options.raw key).getD default

end Options

end Excerpt
