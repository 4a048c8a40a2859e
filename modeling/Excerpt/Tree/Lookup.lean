import Excerpt.Store.Basic
import Excerpt.Tree.Basic

/-!
Looking things up in a tree by written paths, from a directory of the tree. An absolute path starts at the
root; two dots lead to the directory around; links are followed, also those that links lead through.
-/

namespace Excerpt.Tree

/-- How many links a path may lead through. -/
def linkLimit : Nat := 40

/-- How many bytes a name may have. -/
def nameLimit : Nat := 255

/-- The place that `steps` lead to from `place`. Where a link comes first on the way, `behindLink` says what it
leads to, with the steps behind it. A step of no characters stays where it is, but only in a directory. -/
def walk (t : Tree) (behindLink : Path → Text → List Text → Except FileFault Path) (place : Path) :
    (steps : List Text) → Except FileFault Path
  | [] => .ok place
  | step :: rest =>
    if ! t.isDirectory place then .error .notDirectory
    else if step = [] || step = ['.'] then t.walk behindLink place rest
    else if step = ['.', '.'] then t.walk behindLink place.dropLast rest
    else if nameLimit < Text.width step then .error .nameTooLong
    else
      match t.entry? (place ++ [step]) with
      | none => .error .missing
      | some (.link target) => behindLink place target rest
      | some _ => t.walk behindLink (place ++ [step]) rest

/-- The place that `steps` lead to from `place`, through at most `links` links. -/
def follow (t : Tree) : (links : Nat) → (place : Path) → (steps : List Text) → Except FileFault Path
  | 0 => t.walk fun _ _ _ => .error .linkLoop
  | links + 1 => t.walk fun place target rest =>
    t.follow links (if Path.isAbsolute target then [] else place) (Path.steps target ++ rest)

/-- The place that a written path names, as seen from a directory. No link lies there. -/
def locate (t : Tree) (directory : Path) (written : Text) : Except FileFault Path :=
  if written.contains '\x00' then .error .nameWithNul
  else t.follow linkLimit (if Path.isAbsolute written then [] else directory) (Path.steps written)

/-- What a written path names, with its place. -/
def find? (t : Tree) (directory : Path) (written : Text) : Option (Path × Entry) :=
  match t.locate directory written with
  | .error _ => none
  | .ok place => (t.entry? place).map fun entry => (place, entry)

def hasFile (t : Tree) (directory : Path) (written : Text) : Bool :=
  match t.find? directory written with
  | some (_, .file _) => true
  | _ => false

def directory? (t : Tree) (directory : Path) (written : Text) : Option Path :=
  match t.find? directory written with
  | some (place, .directory) => some place
  | _ => none

def readBytes (t : Tree) (directory : Path) (written : Text) : Except FileFault ByteArray :=
  match t.locate directory written with
  | .error fault => .error fault
  | .ok place =>
    match t.entry? place with
    | some (.file content) => .ok content
    | some .directory => .error .isDirectory
    | _ => .error .missing

def readText (t : Tree) (directory : Path) (written : Text) : Except FileFault Text :=
  match t.readBytes directory written with
  | .error fault => .error fault
  | .ok content =>
    match Utf8.decode? content with
    | some s => .ok s
    | none => .error .notText

/-- The tree with another text in the file that the path names, if it names one. -/
def writeText (t : Tree) (directory : Path) (written s : Text) : Tree :=
  match t.locate directory written with
  | .error _ => t
  | .ok place => t.setContent place (Utf8.encodeFile s)

end Excerpt.Tree
