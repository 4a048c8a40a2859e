import Excerpt.Discovery.Selection
import Excerpt.Tree.Lookup

/-!
Finding the documents of a project. The search goes from directory to directory, through links too, and
ends with an error where it comes to one directory twice.
-/

namespace Excerpt

/-- The search came by `path` to a directory where it had been before. -/
structure LinkCycle where
  path : Path
  deriving DecidableEq, Repr

def LinkCycle.diagnostic (e : LinkCycle) : Diagnostic :=
  ⟨"symlink cycle detected at: `" ++ shown e.path.text ++ "`", "snippet_link::symlink_cycle",
    some "remove the circular symlink or exclude this path"⟩

/-- A directory that the search comes to: the path that it came by, and the place where the directory
is. -/
structure Stop where
  path : Path
  place : Path
  deriving DecidableEq, Repr

namespace Discovery

/-- The place of something in a directory, and what it is; of a link, what it leads to. -/
def target? (t : Tree) (directory : Path) (name : Text) : Entry → Option (Path × Entry)
  | .link _ => t.find? directory name
  | entry => some (directory ++ [name], entry)

/-- A search: the tree, the rules of the project's ignore file, and what is searched for. -/
structure Search where
  tree : Tree
  ignored : List IgnoreRule
  selection : Selection

namespace Search

def passesOver (search : Search) (path : Path) (isDirectory : Bool) : Bool :=
  IgnoreRule.excludes search.ignored path isDirectory ||
    IgnoreRule.excludes search.selection.exclude path isDirectory

/-- Where the search goes on from something in a directory: nowhere unless it is a directory that counts. -/
def descend? (search : Search) (stop : Stop) (name : Text) (entry : Entry) : Option Stop :=
  match target? search.tree stop.place name entry with
  | some (place, .directory) =>
    let path := stop.path ++ [name]
    if Selection.isSkippedName name || search.passesOver path true then none else some ⟨path, place⟩
  | _ => none

/-- The path of something in a directory, if it is a document. -/
def document? (search : Search) (stop : Stop) (name : Text) (entry : Entry) : Option Path :=
  match target? search.tree stop.place name entry with
  | some (_, .file content) =>
    let path := stop.path ++ [name]
    if ! search.passesOver path false && search.selection.accepts path &&
        content.size ≤ search.selection.maxSize then some path
    else none
  | _ => none

/-- The directories in which the search goes on from one of them. -/
def next (search : Search) (stop : Stop) : List Stop :=
  (search.tree.children stop.place).filterMap fun (name, entry) => search.descend? stop name entry

def documents (search : Search) (stop : Stop) : List Path :=
  (search.tree.children stop.place).filterMap fun (name, entry) => search.document? stop name entry

/-- Searches the directories of `pending` and those that they lead to, each of which has to be one of
`unseen`. -/
def run (search : Search) (unseen : List Path) (pending : List Stop) (found : List Path) :
    Except LinkCycle (List Path) :=
  match pending with
  | [] => .ok found
  | stop :: rest =>
    if _seen : stop.place ∈ unseen then
      -- the place is seen now, so that another way to it ends the search
      search.run (unseen.erase stop.place) (search.next stop ++ rest) (search.documents stop ++ found)
    else .error ⟨stop.path⟩
termination_by unseen.length
decreasing_by
  have shorter := List.length_erase_of_mem _seen
  have positive := List.length_pos_of_mem _seen
  omega

end Search

/-- The rules in the ignore file of a directory; there are none where it cannot be read. -/
def ignoredIn (t : Tree) (place : Path) : List IgnoreRule :=
  match t.readBytes place ".gitignore".toList with
  | .ok content => IgnoreRule.ofFile content
  | .error _ => []

/-- The documents below the directory that the written path `root` names, as seen from `directory`, by
their paths from there in order. -/
def documents (t : Tree) (directory : Path) (root : Text) (selection : Selection) :
    Except LinkCycle (List Path) :=
  match t.directory? directory root with
  | none => .ok []
  | some place =>
    let ignored := if selection.useIgnoreFile then ignoredIn t place else []
    let search : Search := ⟨t, ignored, selection⟩
    (search.run t.directories [⟨[], place⟩] []).map fun found => found.mergeSort Path.le

end Discovery

end Excerpt
