import Excerpt.Toml.Quoted
import Excerpt.Toml.Scalar

/-!
Reading TOML documents.
-/

namespace Excerpt.Toml

def skipBlanks (s : Text) : Text := s.dropWhile fun c => c = ' ' || c = '\t'

/-- What follows a comment, if the text begins with one: the rest of its line belongs to it. -/
def skipComment? (s : Text) : Option Text :=
  match s with
  | '#' :: s =>
    let line := s.takeWhile (· ≠ '\n')
    let behind := s.dropWhile (· ≠ '\n')
    match line.getLast?, behind with
    | some '\r', _ :: _ => if line.dropLast.any isControl then none else some behind
    | _, _ => if line.any isControl then none else some behind
  | s => some s

/-- What follows blanks, comments and line breaks, where `fuel` bounds the number of lines. -/
def skipLines? : (fuel : Nat) → Text → Option Text
  | 0, _ => none
  | fuel + 1, s =>
    match skipComment? (skipBlanks s) with
    | none => none
    | some s =>
      match newline? s with
      | some s => skipLines? fuel s
      | none => some s

/-- What follows blanks, comments and line breaks. -/
def skipSpace? (s : Text) : Option Text := skipLines? (s.length + 1) s

/-- What ends a line: blanks, perhaps a comment, and a line break or the end of the text. -/
def endLine? (s : Text) : Option Text :=
  match skipComment? (skipBlanks s) with
  | some [] => some []
  | some s => newline? s
  | none => none

/-- Whether the character can stand in a key without quotes. -/
def isKeyCharacter (c : Char) : Bool := c.isAlphanum || c = '_' || c = '-'

/-- A part of a key, and the rest. -/
def keyPart? (s : Text) : Option (Text × Text) :=
  match s with
  | '"' :: '"' :: '"' :: _ | '\'' :: '\'' :: '\'' :: _ => none
  | '"' :: _ | '\'' :: _ => string? s
  | s =>
    let key := s.takeWhile isKeyCharacter
    if key.isEmpty then none else some (key, s.dropWhile isKeyCharacter)

/-- A key, as its parts between dots, and the rest; `fuel` bounds the number of parts. -/
def key? : (fuel : Nat) → Text → Option (List Text × Text)
  | 0, _ => none
  | fuel + 1, s =>
    match keyPart? (skipBlanks s) with
    | none => none
    | some (part, s) =>
      match skipBlanks s with
      | '.' :: s => (key? fuel s).map fun (parts, s) => (part :: parts, s)
      | s => some ([part], s)

/-- Whether the character can stand in a value without quotes. -/
def isScalarCharacter (c : Char) : Bool :=
  c.isAlphanum || c = '_' || c = '-' || c = '+' || c = '.' || c = ':'

/-- A value without quotes, and the rest. A single space can join a date and a time. -/
def readScalar? (s : Text) : Option (Value × Text) :=
  let word := s.takeWhile isScalarCharacter
  let rest := s.dropWhile isScalarCharacter
  let (word, rest) :=
    match date? word, rest with
    -- the word is a date and nothing else, so a time may follow
    | some [], ' ' :: d :: more =>
      if d.isDigit then
        (word ++ ' ' :: (d :: more).takeWhile isScalarCharacter, more.dropWhile isScalarCharacter)
      else (word, rest)
    | _, _ => (word, rest)
  (scalar? word).map fun value => (value, rest)

/-- The items of an array up to its closing bracket, the last one first, where `value?` reads one and
`fuel` bounds their number. -/
def items? (value? : Text → Option (Value × Text)) : (fuel : Nat) → List Value → Text →
    Option (List Value × Text)
  | 0, _, _ => none
  | fuel + 1, done, s => do
    let s ← skipSpace? s
    match s with
    | ']' :: s => pure (done, s)
    | s =>
      let (value, s) ← value? s
      let s ← skipSpace? s
      match s with
      | ',' :: s => items? value? fuel (value :: done) s
      | ']' :: s => pure (value :: done, s)
      | _ => none

/-- The entries of a table up to its closing brace, where `value?` reads a value and `fuel` bounds their
number. -/
def inlineEntries? (value? : Text → Option (Value × Text)) : (fuel : Nat) → Table → Text →
    Option (Table × Text)
  | 0, _, _ => none
  | fuel + 1, done, s => do
    let s ← skipSpace? s
    match s with
    | '\x7d' :: s => pure (done, s)
    | s =>
      let (path, s) ← key? (s.length + 1) s
      let s ← skip? '=' s
      let (value, s) ← value? (skipBlanks s)
      let done ← done.addDotted? .inline path value
      let s ← skipSpace? s
      match s with
      | ',' :: s => inlineEntries? value? fuel done s
      | '\x7d' :: s => pure (done, s)
      | _ => none

/-- A value, and the rest; arrays and tables can be nested `depth` deep. -/
def value? : (depth : Nat) → Text → Option (Value × Text)
  | 0, _ => none
  | depth + 1, s =>
    match s with
    | '"' :: _ | '\'' :: _ => (string? s).map fun (text, s) => (.string text, s)
    | '[' :: s =>
      (items? (value? depth) (s.length + 1) [] s).map fun (items, s) => (.array false items.reverse, s)
    | '\x7b' :: s =>
      (inlineEntries? (value? depth) (s.length + 1) [] s).map fun (entries, s) =>
        (.table .inline entries, s)
    | s => readScalar? s

/-- How deep values can be nested. -/
def nesting : Nat := 81

/-- A document as far as it is read: its table, and the path of the header that new keys belong to. -/
structure Reading where
  root : Table
  path : List Text

/-- The document with one more entry under the last header. -/
def Reading.addEntry? (r : Reading) (path : List Text) (value : Value) : Option Reading :=
  (Table.updateAt? false (fun origin t => t.addDotted? origin path value) .header r.root r.path).map
    fun root => { r with root }

/-- Reads one line, or one entry over several lines, behind its leading blanks. -/
def readLine? (r : Reading) (s : Text) : Option (Reading × Text) :=
  match s with
  | [] | '#' :: _ | '\n' :: _ | '\r' :: _ => (endLine? s).map fun s => (r, s)
  | '[' :: '[' :: s => do
    let (path, s) ← key? (s.length + 1) s
    let s ← skip? ']' s
    let s ← skip? ']' s
    let root ← r.root.openItem? path
    let s ← endLine? s
    pure (⟨root, path⟩, s)
  | '[' :: s => do
    let (path, s) ← key? (s.length + 1) s
    let s ← skip? ']' s
    let root ← r.root.openTable? path
    let s ← endLine? s
    pure (⟨root, path⟩, s)
  | s => do
    let (path, s) ← key? (s.length + 1) s
    let s ← skip? '=' s
    let (value, s) ← value? nesting (skipBlanks s)
    let r ← r.addEntry? path value
    let s ← endLine? s
    pure (r, s)

/-- Reads lines up to the end of the text, where `fuel` bounds their number. -/
def readLines? : (fuel : Nat) → Reading → Text → Option Table
  | 0, _, _ => none
  | fuel + 1, r, s =>
    match skipBlanks s with
    | [] => some r.root
    | s =>
      match readLine? r s with
      | none => none
      | some (r, s) => readLines? fuel r s

/-- The table that a document holds. A byte order mark at its start does not count. -/
def read? (s : Text) : Option Table :=
  let s := if s.head? = some '\uFEFF' then s.tail else s
  readLines? (s.length + 1) ⟨[], []⟩ s

end Excerpt.Toml
