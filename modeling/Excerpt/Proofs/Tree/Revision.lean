import Excerpt.Proofs.Tree.Paths
import Excerpt.Tree.Store

/-!
# Excerpt — trees with other contents of their files

Writing files leaves everything in a tree where it is: the same paths lead to the same places, the same places are
directories, and what can be seen without reading a file stays as it is. What is read changes at the places that were
written, and nowhere else.

* **`Tree.LiesAlike`** — at each place lies the same in both trees, up to the contents of files.
* **`LiesAlike.locate_eq`**, **`LiesAlike.find?_eq`** — a written path names the same place, and the same there.
* **`Tree.IsRevision`** — one tree is another one with other contents of its files, told by their places.
* **`IsRevision.liesAlike`**, **`IsRevision.children_eq`** — what lies at a place, and in a directory.
* **`LiesAlike.readText_eq_of_keeps`**, **`IsRevision.read_store_eq`** — what is read at a place that was not written.
-/

namespace Excerpt

/-- What is written as a text is read as that text. -/
theorem Utf8.decode?_encodeFile (s : Text) : decode? (encodeFile s) = some s := by
  have hvalid : (String.ofList s).toUTF8.IsValidUTF8 := String.isValidUTF8 _
  unfold decode? encodeFile String.fromUTF8?
  rw [dif_pos hvalid]
  exact congrArg some String.toList_ofList

/-- The entry with what `f` makes of its content, if it is a file. -/
def Entry.revise (f : ByteArray → ByteArray) : Entry → Entry
  | file content => file (f content)
  | directory => directory
  | link target => link target

@[simp] theorem Entry.isDirectory_revise (f : ByteArray → ByteArray) (entry : Entry) :
    (entry.revise f).isDirectory = entry.isDirectory := by
  cases entry <;> rfl

@[simp] theorem Entry.revise_id (entry : Entry) : entry.revise (fun content => content) = entry := by
  cases entry <;> rfl

@[simp] theorem Entry.revise_revise (f g : ByteArray → ByteArray) (entry : Entry) :
    (entry.revise f).revise g = entry.revise fun content => g (f content) := by
  cases entry <;> rfl

namespace Tree

variable {f : Path → ByteArray → ByteArray} {t t' : Tree}

/-- At each place lies the same in both trees, a file with what `f` makes of its content. -/
def LiesAlike (f : Path → ByteArray → ByteArray) (t t' : Tree) : Prop :=
  ∀ path, t'.entry? path = (t.entry? path).map (Entry.revise (f path))

/-- The path names no place that was written. -/
def IsRevision.Keeps (f : Path → ByteArray → ByteArray) (t : Tree) (directory : Path) (written : Text) : Prop :=
  ∀ place, t.locate directory written = .ok place → ∀ content, f place content = content

namespace LiesAlike

theorem isDirectory_eq (h : LiesAlike f t t') (path : Path) : t'.isDirectory path = t.isDirectory path := by
  unfold isDirectory
  rw [h]
  cases t.entry? path <;> simp

/-! ## What a written path names -/

theorem walk_eq (h : LiesAlike f t t') (behindLink : Path → Text → List Text → Except FileFault Path) (place : Path)
    (steps : List Text) : t'.walk behindLink place steps = t.walk behindLink place steps := by
  induction steps generalizing place with
  | nil => rfl
  | cons step rest ih =>
    unfold walk
    rw [h.isDirectory_eq, h, ih, ih]
    cases t.entry? (place ++ [step]) with
    | none => rfl
    | some entry =>
      cases entry with
      | link target => rfl
      | file content => simp only [Option.map_some, Entry.revise, ih]
      | directory => simp only [Option.map_some, Entry.revise, ih]

theorem follow_eq (h : LiesAlike f t t') (links : Nat) : t'.follow links = t.follow links := by
  induction links with
  | zero => exact funext₂ fun place steps => h.walk_eq _ place steps
  | succ links ih =>
    unfold follow
    rw [ih]
    exact funext₂ fun place steps => h.walk_eq _ place steps

theorem locate_eq (h : LiesAlike f t t') (directory : Path) (written : Text) :
    t'.locate directory written = t.locate directory written := by
  unfold locate
  rw [h.follow_eq]

theorem find?_eq (h : LiesAlike f t t') (directory : Path) (written : Text) :
    t'.find? directory written = (t.find? directory written).map fun e => (e.1, e.2.revise (f e.1)) := by
  unfold find?
  rw [h.locate_eq]
  cases t.locate directory written with
  | error fault => rfl
  | ok place =>
    dsimp only
    rw [h]
    cases t.entry? place <;> rfl

theorem hasFile_eq (h : LiesAlike f t t') (directory : Path) (written : Text) :
    t'.hasFile directory written = t.hasFile directory written := by
  unfold hasFile
  rw [h.find?_eq]
  cases t.find? directory written with
  | none => rfl
  | some found =>
    obtain ⟨place, entry⟩ := found
    cases entry <;> rfl

theorem directory?_eq (h : LiesAlike f t t') (directory : Path) (written : Text) :
    t'.directory? directory written = t.directory? directory written := by
  unfold directory?
  rw [h.find?_eq]
  cases t.find? directory written with
  | none => rfl
  | some found =>
    obtain ⟨place, entry⟩ := found
    cases entry <;> rfl

theorem readBytes_eq (h : LiesAlike f t t') {directory place : Path} {written : Text}
    (hplace : t.locate directory written = .ok place) :
    t'.readBytes directory written = (t.readBytes directory written).map (f place) := by
  unfold readBytes
  rw [h.locate_eq, hplace]
  dsimp only
  rw [h]
  cases t.entry? place with
  | none => rfl
  | some entry => cases entry <;> rfl

theorem readBytes_eq_of_keeps (h : LiesAlike f t t') {directory : Path} {written : Text}
    (hkeeps : IsRevision.Keeps f t directory written) : t'.readBytes directory written = t.readBytes directory written := by
  cases hplace : t.locate directory written with
  | error fault =>
    unfold readBytes
    rw [h.locate_eq, hplace]
  | ok place =>
    rw [h.readBytes_eq hplace]
    cases t.readBytes directory written with
    | error fault => rfl
    | ok content => exact congrArg Except.ok (hkeeps place hplace content)

theorem readText_eq_of_keeps (h : LiesAlike f t t') {directory : Path} {written : Text}
    (hkeeps : IsRevision.Keeps f t directory written) : t'.readText directory written = t.readText directory written := by
  unfold readText
  rw [h.readBytes_eq_of_keeps hkeeps]

end LiesAlike

/-! ## Trees with other contents of their files -/

/-- The second tree is the first one with other contents of its files: at each place what `f` makes of the content. -/
def IsRevision (f : Path → ByteArray → ByteArray) (t t' : Tree) : Prop :=
  t'.entries = t.entries.map fun e => (e.1, e.2.revise (f e.1))

theorem IsRevision.refl (t : Tree) : IsRevision (fun _ content => content) t t := by
  simp [IsRevision]

theorem IsRevision.trans {f g : Path → ByteArray → ByteArray} {t t' t'' : Tree} (h : IsRevision f t t')
    (h' : IsRevision g t' t'') : IsRevision (fun path content => g path (f path content)) t t'' := by
  unfold IsRevision at *
  rw [h', h, List.map_map]
  simp [Function.comp_def]

theorem isRevision_setContent (t : Tree) (path : Path) (content : ByteArray) :
    IsRevision (fun place old => if place = path then content else old) t (t.setContent path content) := by
  refine List.map_congr_left ?_
  rintro ⟨place, entry⟩ -
  cases entry <;> rfl

namespace IsRevision

theorem liesAlike (h : IsRevision f t t') : LiesAlike f t t' := by
  intro path
  unfold entry?
  split
  · rfl
  · rw [h]
    induction t.entries with
    | nil => rfl
    | cons e rest ih =>
      rw [List.map_cons, List.lookup_cons, List.lookup_cons, ih]
      by_cases hpath : path = e.1
      · simp [hpath]
      · simp [beq_false_of_ne hpath]

theorem children_eq (h : IsRevision f t t') (path : Path) :
    t'.children path = (t.children path).map fun e => (e.1, e.2.revise (f (path ++ [e.1]))) := by
  unfold children
  rw [h, List.filterMap_map, List.map_filterMap]
  refine congrArg (List.filterMap · t.entries) (funext fun e => ?_)
  dsimp only [Function.comp_apply]
  cases hrest : path.isPrefixOf? e.1 with
  | none => rfl
  | some rest =>
    rcases rest with _ | ⟨name, _ | ⟨second, rest⟩⟩
    · rfl
    · have hplace := List.isPrefixOf?_eq_some_iff_append_eq.mp hrest
      rw [← hplace]
      rfl
    · rfl

theorem directories_eq (h : IsRevision f t t') : t'.directories = t.directories := by
  unfold directories
  rw [h, List.filterMap_map]
  simp

/-! ## What a store sees -/

theorem fileExists_store_eq (h : IsRevision f t t') (directory : Path) (root : Text) :
    (t'.store directory root).fileExists = (t.store directory root).fileExists :=
  funext fun path => h.liesAlike.hasFile_eq directory (Path.joinWritten root path)

theorem directoryExists_store_eq (h : IsRevision f t t') (directory : Path) (root : Text) :
    (t'.store directory root).directoryExists = (t.store directory root).directoryExists :=
  funext fun path => congrArg Option.isSome (h.liesAlike.directory?_eq directory (Path.joinWritten root path))

theorem subdirectories_store_eq (h : IsRevision f t t') (directory : Path) (root : Text) :
    (t'.store directory root).subdirectories = (t.store directory root).subdirectories := by
  funext path pattern
  show t'.subdirectories directory root path pattern = t.subdirectories directory root path pattern
  unfold subdirectories
  rw [h.liesAlike.locate_eq]
  cases Glob.read false pattern with
  | error e => rfl
  | ok items =>
    cases t.locate directory (Path.joinWritten root path) with
    | error fault => rfl
    | ok place =>
      dsimp only
      rw [h.liesAlike.isDirectory_eq, h.children_eq, List.filterMap_map]
      simp

theorem read_store_eq (h : IsRevision f t t') {directory : Path} {root path : Text}
    (hkeeps : Keeps f t directory (Path.joinWritten root path)) :
    (t'.store directory root).read path = (t.store directory root).read path := by
  unfold store
  dsimp only
  rw [h.liesAlike.readText_eq_of_keeps hkeeps]

end IsRevision

end Tree

end Excerpt
