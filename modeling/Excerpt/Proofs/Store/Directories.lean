import Excerpt.Proofs.Glob.Language
import Excerpt.Proofs.Store.Locators
import Excerpt.Proofs.Text.Sorted
import Excerpt.Proofs.Text.Trimming
import Excerpt.Store.Memory

/-!
# Excerpt — the directories of a store in memory

Files are kept by the path that is left of theirs without backslashes, slashes at the end and `./` at the start.
Directories are only there by the files below them: what is listed in one are the names that a slash and more follows
in the path of some file.

* **`MemoryStore.exists_mem_ofList_iff`** — the paths by which files are kept.
* **`MemoryStore.HasDirectory`**, **`MemoryStore.mem_directoryNames_iff`** — what is listed in a directory.
* **`MemoryStore.subdirectories_net`** — the directories whose names begin with `net`.
-/

namespace Excerpt

namespace MemoryStore

/-! ## Paths that files are kept by -/

theorem mem_dropHere {c : Char} {s : Text} (h : c ∈ s) (hdot : c ≠ '.') (hslash : c ≠ '/') : c ∈ dropHere s := by
  fun_induction dropHere s with
  | case1 s ih => exact ih (by simpa [hdot, hslash] using h)
  | case2 => exact h

theorem dropHere_suffix (s : Text) : dropHere s <:+ s := by
  fun_induction dropHere s with
  | case1 s ih => exact ih.trans ⟨['.', '/'], rfl⟩
  | case2 => exact List.suffix_refl _

/-- What is left of a path, and the slashes that stood behind it. -/
theorem exists_normalize_append (path : Text) :
    ∃ tail, dropHere (path.map fun c => if c = '\\' then '/' else c) = normalize path ++ tail ∧ ∀ c ∈ tail, c = '/' := by
  obtain ⟨tail, hdropped, htail⟩ :=
    Text.exists_dropEndWhile (· = '/') (dropHere (path.map fun c => if c = '\\' then '/' else c))
  exact ⟨tail, hdropped, fun c hc => of_decide_eq_true (htail c hc)⟩

theorem notMem_normalize (path : Text) : '\\' ∉ normalize path := by
  obtain ⟨tail, hdropped, -⟩ := exists_normalize_append path
  intro hmem
  have hkept : '\\' ∈ path.map fun c => if c = '\\' then '/' else c :=
    (dropHere_suffix _).subset (hdropped ▸ List.mem_append_left tail hmem)
  obtain ⟨c, -, hc⟩ := List.mem_map.mp hkept
  split at hc
  · cases hc
  · next hne => exact hne hc

/-- What is left of a path has all its characters but slashes and dots. -/
theorem mem_normalize {c : Char} {path : Text} (h : c ∈ path) (hdot : c ≠ '.') (hslash : c ≠ '/') (hback : c ≠ '\\') :
    c ∈ normalize path := by
  have hmap : c ∈ path.map fun c => if c = '\\' then '/' else c := List.mem_map.mpr ⟨c, h, if_neg hback⟩
  obtain ⟨tail, hdropped, htail⟩ := exists_normalize_append path
  have hkept := mem_dropHere hmap hdot hslash
  rw [hdropped] at hkept
  exact (List.mem_append.mp hkept).resolve_right fun hmem => hslash (htail c hmem)

/-- Nothing that parts segments is at the end of what is left of a path. -/
theorem trimEnd_normalize (path : Text) : Locator.trimEnd (normalize path) = normalize path := by
  refine Text.dropEndWhile_eq_self fun c hc => ?_
  have hslash : c ≠ '/' := of_decide_eq_false (Text.getLast?_dropEndWhile hc)
  have hback : c ≠ '\\' := by
    rintro rfl
    exact notMem_normalize path (List.mem_of_getLast? hc)
  exact Locator.isSeparator_eq_false_iff.mpr ⟨hslash, hback⟩

/-- What is left of a path does not begin with `./`. -/
theorem not_prefix_normalize (path : Text) : ¬ ['.', '/'] <+: normalize path := by
  have hdrop : ∀ s : Text, ¬ ['.', '/'] <+: dropHere s := by
    intro s
    fun_induction dropHere s with
    | case1 s ih => exact ih
    | case2 s hother =>
      rintro ⟨rest, rfl⟩
      exact hother rest rfl
  obtain ⟨tail, hdropped, -⟩ := exists_normalize_append path
  exact fun h => hdrop _ (hdropped ▸ h.trans (List.prefix_append _ tail))

theorem dropHere_eq_self {s : Text} (h : ¬ ['.', '/'] <+: s) : dropHere s = s := by
  unfold dropHere
  split
  · next rest => exact absurd ⟨rest, rfl⟩ h
  · rfl

/-- A text without backslashes has none to be turned. -/
theorem map_slash_eq_self {s : Text} (h : '\\' ∉ s) : (s.map fun c => if c = '\\' then '/' else c) = s := by
  refine (List.map_congr_left fun c hc => if_neg ?_).trans (List.map_id _)
  rintro rfl
  exact h hc

/-- What goes on from what is left of a path is kept with it in front. -/
theorem normalize_append {path x : Text} (hlength : 2 ≤ (normalize path).length) (hne : x ≠ [])
    (hlast : ∀ c ∈ x.getLast?, Locator.isSeparator c = false) :
    normalize (normalize path ++ x) = normalize path ++ x.map fun c => if c = '\\' then '/' else c := by
  have hhere : ∀ y : Text, dropHere (normalize path ++ y) = normalize path ++ y := by
    intro y
    refine dropHere_eq_self fun h => not_prefix_normalize path ?_
    exact List.prefix_of_prefix_length_le h (List.prefix_append _ y) hlength
  show Text.dropEndWhile (· = '/') (dropHere ((normalize path ++ x).map fun c => if c = '\\' then '/' else c)) = _
  rw [List.map_append, map_slash_eq_self (notMem_normalize path), hhere]
  refine Text.dropEndWhile_eq_self fun c hc => ?_
  rw [List.getLast?_append_of_ne_nil _ (by simpa using hne), List.getLast?_map] at hc
  obtain ⟨d, hd, rfl⟩ := Option.map_eq_some_iff.mp hc
  obtain ⟨hslash, hback⟩ := Locator.isSeparator_eq_false_iff.mp (hlast d hd)
  rw [if_neg hback]
  exact decide_eq_false hslash

theorem exists_mem_insert_iff {m : MemoryStore} {path content key : Text} :
    (∃ kept, (key, kept) ∈ (m.insert path content).files) ↔ key = normalize path ∨ ∃ kept, (key, kept) ∈ m.files := by
  by_cases heq : key = normalize path
  · exact iff_of_true ⟨content, heq ▸ List.mem_cons_self⟩ (Or.inl heq)
  · simp [MemoryStore.insert, heq]

/-- **The paths by which files are kept,** in whatever order they come. -/
theorem exists_mem_ofList_iff {files : List (Text × Text)} {key : Text} :
    (∃ kept, (key, kept) ∈ (ofList files).files) ↔ ∃ file ∈ files, normalize file.1 = key := by
  have hfold : ∀ m : MemoryStore,
      (∃ kept, (key, kept) ∈ (files.foldl (fun m file => m.insert file.1 file.2) m).files) ↔
        (∃ file ∈ files, normalize file.1 = key) ∨ ∃ kept, (key, kept) ∈ m.files := by
    induction files with
    | nil => simp
    | cons file files ih =>
      intro m
      rw [List.foldl_cons, ih, exists_mem_insert_iff, List.exists_mem_cons_iff, or_left_comm, or_assoc, eq_comm]
  rw [ofList, hfold]
  simp [empty]

/-- **No file is kept by a path with a backslash.** -/
theorem notMem_of_mem_ofList {files : List (Text × Text)} {key content : Text}
    (h : (key, content) ∈ (ofList files).files) : '\\' ∉ key := by
  obtain ⟨file, -, rfl⟩ := exists_mem_ofList_iff.mp ⟨content, h⟩
  exact notMem_normalize file.1

/-! ## Directories -/

/-- A directory of the name lies directly below the directory: the path of some file goes on with the name and a slash
there. -/
def HasDirectory (m : MemoryStore) (directory name : Text) : Prop :=
  '/' ∉ name ∧ ∃ rest content, (normalize directory ++ '/' :: (name ++ '/' :: rest), content) ∈ m.files

theorem mem_below_iff {m : MemoryStore} {directory rest : Text} :
    rest ∈ m.below directory ↔ ∃ content, (normalize directory ++ '/' :: rest, content) ∈ m.files := by
  unfold below
  rw [List.mem_filterMap]
  constructor
  · rintro ⟨⟨key, content⟩, hmem, hfront⟩
    rw [List.isPrefixOf?_eq_some_iff_append_eq, ← List.append_cons] at hfront
    exact ⟨content, hfront ▸ hmem⟩
  · rintro ⟨content, hmem⟩
    refine ⟨_, hmem, ?_⟩
    rw [List.isPrefixOf?_eq_some_iff_append_eq, ← List.append_cons]

theorem hasDirectory_iff {m : MemoryStore} {directory name : Text} :
    m.HasDirectory directory name ↔
      name ∈ (m.below directory).filterMap fun rest => (Text.splitFirst? (· = '/') rest).map Prod.fst := by
  rw [List.mem_filterMap]
  constructor
  · rintro ⟨hslash, rest, content, hmem⟩
    refine ⟨name ++ '/' :: rest, mem_below_iff.mpr ⟨content, hmem⟩, Option.map_eq_some_iff.mpr ⟨(name, rest), ?_, rfl⟩⟩
    exact Text.splitFirst?_char_eq_some_iff.mpr ⟨rfl, hslash⟩
  · rintro ⟨below, hbelow, hname⟩
    obtain ⟨⟨first, rest⟩, hsplit, rfl⟩ := Option.map_eq_some_iff.mp hname
    obtain ⟨rfl, hslash⟩ := Text.splitFirst?_char_eq_some_iff.mp hsplit
    obtain ⟨content, hmem⟩ := mem_below_iff.mp hbelow
    exact ⟨hslash, rest, content, hmem⟩

/-- **What is listed in a directory.** -/
theorem mem_directoryNames_iff {m : MemoryStore} {directory name : Text} :
    name ∈ m.directoryNames directory ↔ m.HasDirectory directory name := by
  unfold directoryNames
  rw [List.mem_mergeSort, List.mem_eraseDups, hasDirectory_iff]

/-- It is listed in order. -/
theorem pairwise_directoryNames (m : MemoryStore) (directory : Text) :
    (m.directoryNames directory).Pairwise fun a b => a < b ∨ a = b :=
  Sorted.pairwise_mergeSort _

/-- The name of a directory is one segment. -/
theorem isSeparator_of_hasDirectory {files : List (Text × Text)} {directory name : Text}
    (h : (ofList files).HasDirectory directory name) : ∀ c ∈ name, Locator.isSeparator c = false := by
  obtain ⟨hslash, rest, content, hmem⟩ := h
  intro c hc
  have hback : c ≠ '\\' := by
    rintro rfl
    exact notMem_of_mem_ofList hmem (by simp [hc])
  have hplain : c ≠ '/' := fun heq => hslash (heq ▸ hc)
  exact Locator.isSeparator_eq_false_iff.mpr ⟨hplain, hback⟩

theorem read_net : Glob.read false "net*".toList = .ok ("net".toList.map .literal ++ [.anyRun]) := by
  simp [Glob.read, Glob.readFrom, Glob.Reading.push, Glob.Reading.finish]

/-- **The directories whose names begin with `net`.** -/
theorem subdirectories_net (m : MemoryStore) {directory : Text} (hne : normalize directory ≠ []) :
    m.subdirectories directory "net*".toList =
      .ok (((m.directoryNames directory).filter fun name => "net".toList.isPrefixOf name).map
        fun name => normalize directory ++ '/' :: name) := by
  have hpattern : ∀ name, Glob.matchesText ("net".toList.map .literal ++ [.anyRun]) name =
      "net".toList.isPrefixOf name := by
    intro name
    rw [Bool.eq_iff_iff, Glob.matchesText_literals_anyRun, List.isPrefixOf_iff_prefix]
  have hjoin : ∀ name, Locator.join (normalize directory) name = normalize directory ++ '/' :: name := by
    intro name
    rw [Locator.join_of_trimEnd_ne_nil (by rwa [trimEnd_normalize]), trimEnd_normalize]
  unfold subdirectories
  rw [read_net]
  simp only [funext hpattern, funext hjoin]

end MemoryStore

end Excerpt
