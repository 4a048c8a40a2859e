import Excerpt.Text.Utf8
import Excerpt.Tree.Path

/-!
Trees of files. A tree holds files, directories and symbolic links by their paths from its root; every
path occurs once, and whatever is not the root lies in a directory of the tree, under a name that it can
have.
-/

namespace Excerpt

/-- What lies at a place of a tree. A link holds the written path of what it stands for. -/
inductive Entry where
  | file (content : ByteArray)
  | directory
  | link (target : Text)

def Entry.isDirectory : Entry → Bool
  | directory => true
  | _ => false

theorem Entry.isDirectory_iff {entry : Entry} : entry.isDirectory ↔ entry = .directory := by
  cases entry <;> simp [isDirectory]

/-- A tree of files. The root is a directory and not among the entries. -/
structure Tree where
  entries : List (Path × Entry)
  distinct : (entries.map Prod.fst).Nodup
  proper : ∀ entry, ([], entry) ∉ entries
  rooted : ∀ path name entry, (path ++ [name], entry) ∈ entries →
    path = [] ∨ (path, Entry.directory) ∈ entries
  named : ∀ path name entry, (path ++ [name], entry) ∈ entries → Path.isName name

namespace Tree

def empty : Tree where
  entries := []
  distinct := List.nodup_nil
  proper := by simp
  rooted := by simp
  named := by simp

def entry? (t : Tree) (path : Path) : Option Entry :=
  if path.isEmpty then some .directory else t.entries.lookup path

def isDirectory (t : Tree) (path : Path) : Bool := (t.entry? path).any Entry.isDirectory

/-- The names of what lies directly in a directory, with what it is. -/
def children (t : Tree) (path : Path) : List (Text × Entry) :=
  t.entries.filterMap fun (place, entry) =>
    match path.isPrefixOf? place with
    | some [name] => some (name, entry)
    | _ => none

def directories (t : Tree) : List Path :=
  [] :: t.entries.filterMap fun (path, entry) => if entry.isDirectory then some path else none

def files (t : Tree) : List (Path × ByteArray) :=
  let found := t.entries.filterMap fun (path, entry) =>
    match entry with
    | .file content => some (path, content)
    | _ => none
  found.mergeSort fun a b => Path.le a.1 b.1

/-! ## Changing a tree -/

theorem mem_of_lookup {entries : List (Path × Entry)} {path : Path} {entry : Entry}
    (h : entries.lookup path = some entry) : (path, entry) ∈ entries := by
  obtain ⟨before, after, rfl, _⟩ := List.lookup_eq_some_iff.1 h
  simp

theorem eq_nil_or_mem_of_isDirectory {t : Tree} {path : Path} (h : t.isDirectory path) :
    path = [] ∨ (path, Entry.directory) ∈ t.entries := by
  cases path with
  | nil => exact .inl rfl
  | cons name path =>
    simp only [isDirectory, entry?, List.isEmpty_cons, Bool.false_eq_true, if_false,
      Option.any_eq_true] at h
    obtain ⟨entry, found, directory⟩ := h
    rw [Entry.isDirectory_iff.1 directory] at found
    exact .inr (mem_of_lookup found)

theorem notMem_of_entry?_eq_none {t : Tree} {path : Path} (h : t.entry? path = none) :
    path ∉ t.entries.map Prod.fst := by
  unfold entry? at h
  split at h
  · simp at h
  · intro member
    obtain ⟨entry, found, same⟩ := List.mem_map.1 member
    have differs := List.lookup_eq_none_iff.1 h entry found
    simp [same] at differs

/-- The tree with something new in one of its directories, under a name that is free there. -/
def add? (t : Tree) (parent : Path) (name : Text) (entry : Entry) : Option Tree :=
  if h : Path.isName name ∧ t.isDirectory parent ∧ t.entry? (parent ++ [name]) = none then
    some
      { entries := (parent ++ [name], entry) :: t.entries
        distinct := by
          rw [List.map_cons, List.nodup_cons]
          exact ⟨notMem_of_entry?_eq_none h.2.2, t.distinct⟩
        proper := by
          intro other member
          rcases List.mem_cons.1 member with equal | member
          · simp at equal
          · exact t.proper other member
        rooted := by
          intro path last other member
          rcases List.mem_cons.1 member with equal | member
          · have same : path = parent := by simp_all
            rw [same]
            exact (eq_nil_or_mem_of_isDirectory h.2.1).imp id (List.mem_cons_of_mem _)
          · exact (t.rooted path last other member).imp id (List.mem_cons_of_mem _)
        named := by
          intro path last other member
          rcases List.mem_cons.1 member with equal | member
          · have same : last = name := by simp_all
            exact same ▸ h.1
          · exact t.named path last other member }
  else none

/-- The tree with the directory that `names` lead to from the directory `parent`, and those on the
way. -/
def makeDirectories? (t : Tree) (parent : Path) : (names : Path) → Option Tree
  | [] => some t
  | name :: names =>
    if t.isDirectory (parent ++ [name]) then t.makeDirectories? (parent ++ [name]) names
    else (t.add? parent name .directory).bind fun t => t.makeDirectories? (parent ++ [name]) names

/-- The tree with something new at a free place, and the directories that lead there. -/
def put? (t : Tree) (path : Path) (entry : Entry) : Option Tree :=
  match path.getLast? with
  | none => none
  | some name =>
    (t.makeDirectories? [] path.dropLast).bind fun t => t.add? path.dropLast name entry

/-- The entry at `place` with another content, if it is the file at `path`. -/
def withContent (path : Path) (content : ByteArray) : Path × Entry → Path × Entry
  | (place, .file old) => (place, .file (if place = path then content else old))
  | other => other

@[simp] theorem withContent_fst (path : Path) (content : ByteArray) (e : Path × Entry) :
    (withContent path content e).1 = e.1 := by
  obtain ⟨place, entry⟩ := e
  cases entry <;> rfl

/-- The tree with another content of the file at a place, if there is one. -/
def setContent (t : Tree) (path : Path) (content : ByteArray) : Tree where
  entries := t.entries.map (withContent path content)
  distinct := by
    have same : (t.entries.map (withContent path content)).map Prod.fst = t.entries.map Prod.fst := by
      simp
    exact same ▸ t.distinct
  proper := by
    intro entry member
    obtain ⟨⟨place, old⟩, member, equal⟩ := List.mem_map.1 member
    have empty : place = [] := by
      have := congrArg Prod.fst equal
      rwa [withContent_fst] at this
    exact t.proper old (empty ▸ member)
  rooted := by
    intro parent name entry member
    obtain ⟨⟨place, old⟩, member, equal⟩ := List.mem_map.1 member
    have same : place = parent ++ [name] := by
      have := congrArg Prod.fst equal
      rwa [withContent_fst] at this
    exact (t.rooted parent name old (same ▸ member)).imp id fun found =>
      List.mem_map.2 ⟨(parent, .directory), found, rfl⟩
  named := by
    intro parent name entry member
    obtain ⟨⟨place, old⟩, member, equal⟩ := List.mem_map.1 member
    have same : place = parent ++ [name] := by
      have := congrArg Prod.fst equal
      rwa [withContent_fst] at this
    exact t.named parent name old (same ▸ member)

end Tree

end Excerpt
