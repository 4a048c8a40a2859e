import Excerpt.Glob.Match
import Excerpt.Store.Basic
import Excerpt.Store.Locator

/-!
Stores that hold their files in memory. A directory exists where a file lies below it.
-/

namespace Excerpt

/-- Files by their paths, each path once. -/
structure MemoryStore where
  files : List (Text × Text)
  deriving DecidableEq, Repr

namespace MemoryStore

/-- The path without `./` at its start. -/
def dropHere : Text → Text
  | '.' :: '/' :: s => dropHere s
  | s => s

/-- The path under which a file is kept: with slashes only, none at its end and no `./` at its start. -/
def normalize (path : Text) : Text :=
  Text.dropEndWhile (· = '/') (dropHere (path.map fun c => if c = '\\' then '/' else c))

def empty : MemoryStore := ⟨[]⟩

/-- The store with a file at the path, in place of an earlier one. -/
def insert (m : MemoryStore) (path content : Text) : MemoryStore :=
  let key := normalize path
  ⟨(key, content) :: m.files.filter fun file => file.1 ≠ key⟩

/-- The store with the given files; the last one at a path holds. -/
def ofList (files : List (Text × Text)) : MemoryStore :=
  files.foldl (fun m file => m.insert file.1 file.2) empty

def content? (m : MemoryStore) (path : Text) : Option Text := m.files.lookup (normalize path)

/-- What the paths of the files below a directory go on with behind its slash. -/
def below (m : MemoryStore) (path : Text) : List Text :=
  m.files.filterMap fun file => (normalize path ++ ['/']).isPrefixOf? file.1

/-- The names of the directories directly below a directory, in order. -/
def directoryNames (m : MemoryStore) (path : Text) : List Text :=
  let names := (m.below path).filterMap fun rest => (Text.splitFirst? (· = '/') rest).map Prod.fst
  names.eraseDups.mergeSort fun a b => ! (b < a)

/-- The directories directly below a directory whose names match the pattern. -/
def subdirectories (m : MemoryStore) (path pattern : Text) : Except SourceError (List Text) :=
  match Glob.read false pattern with
  | .error e => .error (.invalidGlob pattern e)
  | .ok items =>
    .ok (((m.directoryNames path).filter (Glob.matchesText items)).map
      (Locator.join (normalize path)))

/-- The store as sources are read from it. -/
def toStore (m : MemoryStore) : Store where
  fileExists path := (m.content? path).isSome
  directoryExists path := ! (m.below path).isEmpty
  subdirectories := m.subdirectories
  read path :=
    match m.content? path with
    | some content => .ok content
    | none => .error (.notFound path)

theorem read_toStore {m : MemoryStore} {path content : Text} (h : m.content? path = some content) :
    m.toStore.read path = .ok content := by
  unfold toStore
  dsimp only
  rw [h]

end MemoryStore

end Excerpt
