import Excerpt.Text.Basic

/-!
TOML values. A table remembers how it came to be, which decides whether it can still be extended.
-/

namespace Excerpt.Toml

/-- How a table came to be: under a header of its own, as part of the path of another header, as part of
the path of a key, or between braces. -/
inductive Origin where
  | header
  | implied
  | dotted
  | inline
  deriving DecidableEq, Repr

/-- A value. Of floating point numbers and dates only their presence is kept. An array `ofTables` is one
that headers in double brackets add to. -/
inductive Value where
  | string (s : Text)
  | integer (n : Int)
  | float
  | date
  | boolean (b : Bool)
  | array (ofTables : Bool) (items : List Value)
  | table (origin : Origin) (entries : List (Text × Value))

abbrev Table := List (Text × Value)

namespace Table

/-- The table with another value in place of that of a key. -/
def replace (t : Table) (key : Text) (value : Value) : Table :=
  t.map fun entry => if entry.1 = key then (key, value) else entry

/-- The table with a value under a key that it has not yet. -/
def add? (t : Table) (key : Text) (value : Value) : Option Table :=
  if (t.lookup key).isSome then none else some (t ++ [(key, value)])

/-- Changes the table at the end of a path by `f`, which also gets to know how that table came to be.
Tables that are missing on the way are made; of an array of tables the last one is meant. Along a `dotted`
path, that of a key, only tables without a header of their own can be passed. -/
def updateAt? (dotted : Bool) (f : Origin → Table → Option Table) (origin : Origin) (t : Table) :
    List Text → Option Table
  | [] => f origin t
  | key :: path =>
    match t.lookup key with
    | none =>
      let made := if dotted then Origin.dotted else .implied
      (updateAt? dotted f made [] path).map fun sub => t ++ [(key, .table made sub)]
    | some (.table origin sub) =>
      if origin = .inline || (dotted && origin = .header) then none
      else (updateAt? dotted f origin sub path).map fun sub => replace t key (.table origin sub)
    | some (.array true items) =>
      match items.getLast? with
      | some (.table origin sub) =>
        (updateAt? dotted f origin sub path).map fun sub =>
          replace t key (.array true (items.dropLast ++ [.table origin sub]))
      | _ => none
    | some _ => none

/-- Adds a value under a dotted key. A table made by dotted keys takes no plain ones. -/
def addDotted? (origin : Origin) (t : Table) (path : List Text) (value : Value) : Option Table :=
  match path.getLast? with
  | none => none
  | some key =>
    let dotted := 1 < path.length
    updateAt? dotted (fun origin t => if decide (origin = .dotted) = dotted then t.add? key value else none)
      origin t path.dropLast

def openTable? (t : Table) (path : List Text) : Option Table :=
  match path.getLast? with
  | none => none
  | some key =>
    updateAt? false (fun _ t =>
      match t.lookup key with
      | none => some (t ++ [(key, .table .header [])])
      | some (.table .implied sub) => some (t.replace key (.table .header sub))
      | some _ => none) .header t path.dropLast

/-- Adds a table to the array that a header in double brackets names. -/
def openItem? (t : Table) (path : List Text) : Option Table :=
  match path.getLast? with
  | none => none
  | some key =>
    updateAt? false (fun _ t =>
      match t.lookup key with
      | none => some (t ++ [(key, .array true [.table .header []])])
      | some (.array true items) => some (t.replace key (.array true (items ++ [.table .header []])))
      | some _ => none) .header t path.dropLast

end Table

end Excerpt.Toml
