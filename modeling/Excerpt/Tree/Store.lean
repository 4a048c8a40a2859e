import Excerpt.Glob.Match
import Excerpt.Store.Locator
import Excerpt.Tree.Lookup

/-!
Trees as stores: a locator is a written path as seen from the directory that sources lie in.
-/

namespace Excerpt.Tree

/-- The directories directly in the one that a locator names, links to directories left out, whose names
match the pattern. -/
def subdirectories (t : Tree) (directory : Path) (root path pattern : Text) :
    Except SourceError (List Text) :=
  match Glob.read false pattern with
  | .error e => .error (.invalidGlob pattern e)
  | .ok items =>
    match t.locate directory (Path.joinWritten root path) with
    | .error fault => .error (.file fault)
    | .ok place =>
      if t.isDirectory place then
        let names := (t.children place).filterMap fun (name, entry) =>
          if entry.isDirectory && Glob.matchesText items name then some (Locator.join path name) else none
        .ok (names.mergeSort fun a b => ! (b < a))
      else .error (.file .notDirectory)

/-- The store of what lies in the directory that the written path `root` names, as seen from
`directory`. -/
def store (t : Tree) (directory : Path) (root : Text) : Store where
  fileExists path := t.hasFile directory (Path.joinWritten root path)
  directoryExists path := (t.directory? directory (Path.joinWritten root path)).isSome
  subdirectories := t.subdirectories directory root
  read path :=
    match t.readText directory (Path.joinWritten root path) with
    | .ok s => .ok s
    | .error .missing => .error (.notFound path)
    | .error fault => .error (.file fault)

end Excerpt.Tree
