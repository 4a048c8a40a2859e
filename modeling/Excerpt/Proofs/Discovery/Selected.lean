import Excerpt.Proofs.Discovery.Cycles
import Excerpt.Proofs.Text.Sorted
import Excerpt.Proofs.Text.Trimming

/-!
# Excerpt — which files are documents

Without links below the directory in which it begins, the search comes to each directory that is not passed over and
lies in none that is, by its own names. So the documents can be told by what lies around them, one file at a time: that
the search turns back at a directory is the same as that all files below it do not count.

* **`Selection.exists_ofSettings`** — settings with valid patterns select what they say.
* **`Discovery.IsPassedOver`**, **`Discovery.IsDocument`** — which files are documents, from their paths and the tree.
* **`Discovery.Search.reaches_iff`** — the directories that the search comes to.
* **`Discovery.mem_documents_iff_isDocument`** — the files that are found.
-/

namespace Excerpt

/-- The patterns of the settings are such. -/
structure Settings.HasValidPatterns (settings : Settings) : Prop where
  documents : ∀ pattern ∈ settings.documents, ∃ items, Glob.read false pattern = .ok items
  exclude : ∀ pattern ∈ settings.exclude, ∃ rule, IgnoreRule.parse pattern = .ok rule

/-- Whether patterns are such is found out by reading them. -/
instance (settings : Settings) : Decidable settings.HasValidPatterns :=
  have hread {ε α : Type} (x : Except ε α) : x.isOk = true ↔ ∃ a, x = .ok a := by
    cases x <;> simp [Except.isOk, Except.toBool]
  decidable_of_iff
    ((∀ pattern ∈ settings.documents, (Glob.read false pattern).isOk = true) ∧
      ∀ pattern ∈ settings.exclude, (IgnoreRule.parse pattern).isOk = true)
    ⟨fun h => ⟨fun p hp => (hread _).mp (h.1 p hp), fun p hp => (hread _).mp (h.2 p hp)⟩,
      fun h => ⟨fun p hp => (hread _).mpr (h.documents p hp), fun p hp => (hread _).mpr (h.exclude p hp)⟩⟩

/-- The rules that patterns stand for. -/
def IgnoreRule.ofPatterns (patterns : List Text) : List IgnoreRule :=
  patterns.filterMap fun pattern =>
    match parse pattern with
    | .ok rule => rule
    | .error _ => none

/-! ## What settings select -/

namespace Selection

theorem exists_readDocuments {patterns : List Text}
    (h : ∀ pattern ∈ patterns, ∃ items, Glob.read false pattern = .ok items) :
    ∃ shapes, readDocuments patterns = .ok shapes ∧
      ∀ shape, shape ∈ shapes ↔
        ∃ pattern ∈ patterns, ∃ items, Glob.read false pattern = .ok items ∧ shape = Glob.shape .all items := by
  induction patterns with
  | nil => exact ⟨[], rfl, by simp⟩
  | cons pattern rest ih =>
    obtain ⟨⟨items, hitems⟩, hrest⟩ := List.forall_mem_cons.mp h
    obtain ⟨shapes, hshapes, hmem⟩ := ih hrest
    refine ⟨Glob.shape .all items :: shapes, ?_, fun shape => ?_⟩
    · rw [readDocuments, hitems, hshapes]
      rfl
    · rw [List.mem_cons, hmem, List.exists_mem_cons_iff, hitems]
      simp

theorem readExclude_eq_ofPatterns {patterns : List Text}
    (h : ∀ pattern ∈ patterns, ∃ rule, IgnoreRule.parse pattern = .ok rule) :
    readExclude patterns = .ok (IgnoreRule.ofPatterns patterns) := by
  induction patterns with
  | nil => rfl
  | cons pattern rest ih =>
    obtain ⟨⟨rule, hrule⟩, hrest⟩ := List.forall_mem_cons.mp h
    rw [readExclude, hrule, ih hrest]
    unfold IgnoreRule.ofPatterns
    rw [List.filterMap_cons, hrule]
    cases rule <;> rfl

/-- What is selected is what the settings say, by those of their patterns that are such. -/
structure Follows (selection : Selection) (settings : Settings) : Prop where
  documents : ∀ shape, shape ∈ selection.documents ↔ ∃ pattern ∈ settings.documents, ∃ items,
    Glob.read false pattern = .ok items ∧ shape = Glob.shape .all items
  exclude : selection.exclude = IgnoreRule.ofPatterns settings.exclude
  maxSize : selection.maxSize = settings.maxSize
  useIgnoreFile : selection.useIgnoreFile = ! settings.disableIgnoreFile

/-- **Settings with valid patterns select what they say.** -/
theorem exists_ofSettings {settings : Settings} (h : settings.HasValidPatterns) :
    ∃ selection, ofSettings settings = .ok selection ∧ selection.Follows settings := by
  obtain ⟨shapes, hshapes, hmem⟩ := exists_readDocuments h.documents
  refine ⟨⟨shapes, IgnoreRule.ofPatterns settings.exclude, settings.maxSize, ! settings.disableIgnoreFile⟩, ?_,
    hmem, rfl, rfl, rfl⟩
  unfold ofSettings
  rw [hshapes, readExclude_eq_ofPatterns h.exclude]
  rfl

/-- The name is that of a directory which is set aside: a hidden one, or one for what tools make. -/
def IsSetAside (name : Text) : Prop :=
  name.head? = some '.' ∨ ∃ skipped ∈ ["node_modules", "target", "bin", "obj"], name = skipped.toList

theorem isSkippedName_iff {name : Text} : isSkippedName name = true ↔ IsSetAside name := by
  simp only [isSkippedName, IsSetAside, Bool.or_eq_true, decide_eq_true_eq, List.any_eq_true]

/-- The name is that of a Markdown document. -/
def IsMarkdown (name : Text) : Prop :=
  ∃ stem, stem ≠ [] ∧ ∃ known ∈ ["md", "mdx", "markdown"], name = stem ++ '.' :: known.toList

/-- The extension of a name is what follows its last dot, where something comes before that. -/
theorem extension?_eq_some_iff {name extension : Text} :
    Path.extension? name = some extension ↔
      ∃ stem, stem ≠ [] ∧ name = stem ++ '.' :: extension ∧ '.' ∉ extension := by
  have hlast : ∀ stem, Text.splitLast? (· = '.') name = some (stem, extension) ↔
      name = stem ++ '.' :: extension ∧ '.' ∉ extension := by
    intro stem
    unfold Text.splitLast?
    rw [Option.map_eq_some_iff]
    constructor
    · rintro ⟨⟨after, before⟩, hsplit, hparts⟩
      obtain ⟨rfl, rfl⟩ := Prod.mk.inj hparts
      obtain ⟨hname, hfree⟩ := Text.splitFirst?_char_eq_some_iff.mp hsplit
      exact ⟨by simpa using congrArg List.reverse hname, by simpa using hfree⟩
    · rintro ⟨rfl, hfree⟩
      refine ⟨(extension.reverse, stem.reverse), Text.splitFirst?_char_eq_some_iff.mpr ⟨by simp, by simpa⟩, by simp⟩
  unfold Path.extension?
  constructor
  · intro h
    split at h
    · next c stem after hsplit =>
      obtain rfl := Option.some.inj h
      exact ⟨c :: stem, List.cons_ne_nil _ _, (hlast _).mp hsplit⟩
    · cases h
  · rintro ⟨stem, hne, hname⟩
    obtain ⟨c, stem, rfl⟩ := List.exists_cons_of_ne_nil hne
    rw [(hlast _).mpr hname]

theorem isMarkdownName_iff {name : Text} : isMarkdownName name = true ↔ IsMarkdown name := by
  have hname : isMarkdownName name = true ↔
      ∃ extension, Path.extension? name = some extension ∧
        ∃ known ∈ ["md", "mdx", "markdown"], extension = known.toList := by
    unfold isMarkdownName
    cases Path.extension? name with
    | none => simp
    | some extension => simp only [List.any_eq_true, decide_eq_true_eq, Option.some.injEq, exists_eq_left']
  have hdots : ∀ known ∈ ["md", "mdx", "markdown"], '.' ∉ known.toList := by decide
  rw [hname]
  constructor
  · rintro ⟨extension, hextension, known, hknown, rfl⟩
    obtain ⟨stem, hne, rfl, -⟩ := extension?_eq_some_iff.mp hextension
    exact ⟨stem, hne, known, hknown, rfl⟩
  · rintro ⟨stem, hne, known, hknown, rfl⟩
    exact ⟨known.toList, extension?_eq_some_iff.mpr ⟨stem, hne, rfl, hdots known hknown⟩, known, hknown, rfl⟩

/-- A file is a document by its name, or by its path. -/
theorem Follows.accepts_iff {selection : Selection} {settings : Settings} (h : selection.Follows settings)
    {path : Path} :
    selection.accepts path = true ↔
      (∃ name ∈ path.getLast?, IsMarkdown name) ∨
        ∃ pattern ∈ settings.documents, ∃ items, Glob.read false pattern = .ok items ∧
          Glob.matchesText items path.text = true := by
  have hname : isMarkdownName (path.getLast?.getD []) = true ↔ ∃ name ∈ path.getLast?, IsMarkdown name := by
    rw [isMarkdownName_iff]
    cases path.getLast? with
    | none => simp [IsMarkdown]
    | some name => simp
  have hpath : (selection.documents.any fun shape => shape.fits (Utf8.encode path.text)) = true ↔
      ∃ pattern ∈ settings.documents, ∃ items, Glob.read false pattern = .ok items ∧
        Glob.matchesText items path.text = true := by
    rw [List.any_eq_true]
    constructor
    · rintro ⟨shape, hshape, hfits⟩
      obtain ⟨pattern, hpattern, items, hitems, rfl⟩ := (h.documents shape).mp hshape
      exact ⟨pattern, hpattern, items, hitems, hfits⟩
    · rintro ⟨pattern, hpattern, items, hitems, hfits⟩
      exact ⟨_, (h.documents _).mpr ⟨pattern, hpattern, items, hitems, rfl⟩, hfits⟩
  rw [accepts, Bool.or_eq_true, hname, hpath]

end Selection

namespace Discovery

variable {t : Tree} {root : Path}

/-! ## Rules of what is passed over -/

/-- The rules of a directory are in its ignore file, where no link stands for that. -/
theorem ignoredIn_eq (hroot : t.isDirectory root = true)
    (hlink : ∀ target, t.entry? (root ++ [".gitignore".toList]) ≠ some (.link target)) :
    ignoredIn t root =
      match t.entry? (root ++ [".gitignore".toList]) with
      | some (.file content) => IgnoreRule.ofFile content
      | _ => [] := by
  have hlocate := Tree.locate_name hroot (by decide) (by decide) hlink
  unfold ignoredIn Tree.readBytes
  rw [hlocate]
  cases hentry : t.entry? (root ++ [".gitignore".toList]) with
  | none => rfl
  | some entry =>
    dsimp only
    rw [hentry]
    cases entry with
    | file content => rfl
    | directory => rfl
    | link target => exact absurd hentry (hlink target)

/-- The tree and the settings have a path below a directory passed over: a rule in the ignore file of that directory
does, unless the settings do without it, or one of the settings' own. -/
def IsPassedOver (t : Tree) (root : Path) (settings : Settings) (path : Path) (isDirectory : Bool) : Prop :=
  settings.disableIgnoreFile = false ∧
      (∃ content, t.entry? (root ++ [".gitignore".toList]) = some (.file content) ∧
        IgnoreRule.excludes (IgnoreRule.ofFile content) path isDirectory = true) ∨
    IgnoreRule.excludes (IgnoreRule.ofPatterns settings.exclude) path isDirectory = true

/-- **The path below a directory is that of a document:** a file lies there which is not too large; no directory that
lies around it is set aside or passed over; it is not passed over itself; and it has the name of a Markdown document, or
the path matches one of the settings' patterns. -/
structure IsDocument (t : Tree) (root : Path) (settings : Settings) (path : Path) : Prop where
  file : ∃ content, t.entry? (root ++ path) = some (.file content) ∧ content.size ≤ settings.maxSize
  around : ∀ names name, names ++ [name] <+: path → names ++ [name] ≠ path →
    ¬ Selection.IsSetAside name ∧ ¬ IsPassedOver t root settings (names ++ [name]) true
  kept : ¬ IsPassedOver t root settings path false
  named : (∃ name ∈ path.getLast?, Selection.IsMarkdown name) ∨
    ∃ pattern ∈ settings.documents, ∃ items, Glob.read false pattern = .ok items ∧
      Glob.matchesText items path.text = true

/-- What the search passes over are the paths that the tree and the settings have passed over. -/
theorem passesOver_iff (hroot : t.isDirectory root = true)
    (hlink : ∀ target, t.entry? (root ++ [".gitignore".toList]) ≠ some (.link target)) {selection : Selection}
    {settings : Settings} (h : selection.Follows settings) {path : Path} {isDirectory : Bool} :
    (searchFrom t root selection).passesOver path isDirectory = true ↔
      IsPassedOver t root settings path isDirectory := by
  have hnone : IgnoreRule.excludes [] path isDirectory = false := rfl
  unfold Search.passesOver IsPassedOver
  rw [Bool.or_eq_true, searchFrom, h.exclude, h.useIgnoreFile]
  refine or_congr_left ?_
  cases settings.disableIgnoreFile with
  | true => simp [hnone]
  | false =>
    simp only [Bool.not_false, if_true, true_and, ignoredIn_eq hroot hlink]
    cases t.entry? (root ++ [".gitignore".toList]) with
    | none => simp [hnone]
    | some entry => cases entry <;> simp [hnone]

/-! ## Where no links lie -/

namespace Search

variable {search : Search} (hlinks : ∀ names target, search.tree.entry? (root ++ names) ≠ some (.link target))

include hlinks

/-- What the search comes to in a directory is what lies there. -/
theorem target?_eq_of_entry?_eq {names : Path} {name : Text} {entry : Entry}
    (hentry : search.tree.entry? (root ++ names ++ [name]) = some entry) :
    target? search.tree (root ++ names) name entry = some (root ++ (names ++ [name]), entry) := by
  rw [List.append_assoc] at hentry
  rw [← List.append_assoc]
  cases entry with
  | file content => rfl
  | directory => rfl
  | link target => exact absurd hentry (hlinks _ target)

theorem mem_next_below_iff {names : Path} {next : Stop} :
    next ∈ search.next ⟨names, root ++ names⟩ ↔
      ∃ name, search.tree.entry? (root ++ (names ++ [name])) = some .directory ∧
        Selection.isSkippedName name = false ∧ search.passesOver (names ++ [name]) true = false ∧
        next = ⟨names ++ [name], root ++ (names ++ [name])⟩ := by
  rw [mem_next_iff]
  constructor
  · rintro ⟨name, entry, hentry, hdescend⟩
    obtain ⟨place, htarget, hname, hpath, rfl⟩ := descend?_eq_some_iff.mp hdescend
    rw [target?_eq_of_entry?_eq hlinks hentry] at htarget
    obtain ⟨rfl, rfl⟩ := Prod.mk.inj (Option.some.inj htarget)
    exact ⟨name, List.append_assoc .. ▸ hentry, hname, hpath, rfl⟩
  · rintro ⟨name, hentry, hname, hpath, rfl⟩
    rw [← List.append_assoc] at hentry
    refine ⟨name, .directory, hentry, descend?_eq_some_iff.mpr ?_⟩
    exact ⟨_, target?_eq_of_entry?_eq hlinks hentry, hname, hpath, rfl⟩

theorem mem_documents_below_iff {names path : Path} :
    path ∈ search.documents ⟨names, root ++ names⟩ ↔
      ∃ name content, search.tree.entry? (root ++ (names ++ [name])) = some (.file content) ∧
        search.passesOver (names ++ [name]) false = false ∧ search.selection.accepts (names ++ [name]) = true ∧
        content.size ≤ search.selection.maxSize ∧ path = names ++ [name] := by
  rw [mem_documents_iff]
  constructor
  · rintro ⟨name, entry, hentry, hdocument⟩
    obtain ⟨place, content, htarget, hpath, haccepted, hsize, rfl⟩ := document?_eq_some_iff.mp hdocument
    rw [target?_eq_of_entry?_eq hlinks hentry] at htarget
    obtain ⟨rfl, rfl⟩ := Prod.mk.inj (Option.some.inj htarget)
    exact ⟨name, content, List.append_assoc .. ▸ hentry, hpath, haccepted, hsize, rfl⟩
  · rintro ⟨name, content, hentry, hpath, haccepted, hsize, rfl⟩
    rw [← List.append_assoc] at hentry
    refine ⟨name, .file content, hentry, document?_eq_some_iff.mpr ?_⟩
    exact ⟨_, content, target?_eq_of_entry?_eq hlinks hentry, hpath, haccepted, hsize, rfl⟩

/-- **The search comes to the directories that are not passed over,** and lie in none that is. Induction on the way, and
on the path. -/
theorem reaches_iff (hroot : search.tree.isDirectory root = true) {stop : Stop} :
    search.Reaches ⟨[], root⟩ stop ↔
      stop.place = root ++ stop.path ∧ search.tree.isDirectory stop.place = true ∧
        ∀ names name, names ++ [name] <+: stop.path →
          Selection.isSkippedName name = false ∧ search.passesOver (names ++ [name]) true = false := by
  constructor
  · intro h
    induction h with
    | refl => exact ⟨(List.append_nil root).symm, hroot, by simp⟩
    | @tail stop next hstop hnext ih =>
      obtain ⟨hplace, -, haround⟩ := ih
      obtain ⟨path, place⟩ := stop
      obtain rfl : place = root ++ path := hplace
      obtain ⟨name, hentry, hname, hpath, rfl⟩ := (mem_next_below_iff hlinks).mp hnext
      refine ⟨rfl, Tree.isDirectory_iff.mpr hentry, fun names other hfront => ?_⟩
      rcases List.prefix_concat_iff.mp hfront with hlast | hfront
      · obtain ⟨rfl, hsame⟩ := List.append_inj' hlast rfl
        obtain rfl := List.singleton_inj.mp hsame
        exact ⟨hname, hpath⟩
      · exact haround names other hfront
  · obtain ⟨path, place⟩ := stop
    rintro ⟨hplace, hdirectory, haround⟩
    obtain rfl : place = root ++ path := hplace
    dsimp only at hdirectory haround
    induction path using List.reverseRecOn with
    | nil =>
      rw [List.append_nil]
      exact .refl
    | append_singleton names name ih =>
      obtain ⟨hname, hpath⟩ := haround names name (List.prefix_refl _)
      have hentry := Tree.isDirectory_iff.mp hdirectory
      rw [← List.append_assoc] at hdirectory
      have habove := ih (Tree.isDirectory_of_append hdirectory)
        fun above other hfront => haround above other (hfront.trans (List.prefix_append _ _))
      exact habove.tail ((mem_next_below_iff hlinks).mpr ⟨name, hentry, hname, hpath, rfl⟩)

end Search

section Linkless

variable (hlinks : ∀ names target, t.entry? (root ++ names) ≠ some (.link target))

include hlinks

/-- **The files that the directories hold to which the search comes are the documents.** -/
theorem exists_reaches_iff_isDocument (hroot : t.isDirectory root = true) {selection : Selection} {settings : Settings}
    (h : selection.Follows settings) {path : Path} :
    (∃ stop, (searchFrom t root selection).Reaches ⟨[], root⟩ stop ∧
        path ∈ (searchFrom t root selection).documents stop) ↔
      IsDocument t root settings path := by
  have hpassed : ∀ path isDirectory, (searchFrom t root selection).passesOver path isDirectory = false ↔
      ¬ IsPassedOver t root settings path isDirectory := by
    intro path isDirectory
    rw [← passesOver_iff hroot (hlinks _) h, Bool.not_eq_true]
  have hskipped : ∀ name, Selection.isSkippedName name = false ↔ ¬ Selection.IsSetAside name := by
    intro name
    rw [← Selection.isSkippedName_iff, Bool.not_eq_true]
  have hreaches := @Search.reaches_iff root (searchFrom t root selection) hlinks hroot
  constructor
  · rintro ⟨⟨names, place⟩, hstop, hpath⟩
    obtain ⟨hplace, -, haround⟩ := hreaches.mp hstop
    obtain rfl : place = root ++ names := hplace
    obtain ⟨name, content, hentry, hkept, haccepted, hsize, rfl⟩ := (Search.mem_documents_below_iff hlinks).mp hpath
    refine ⟨⟨content, hentry, h.maxSize ▸ hsize⟩, fun above other hfront hne => ?_, (hpassed _ _).mp hkept,
      h.accepts_iff.mp haccepted⟩
    -- a directory around the file is the one that holds it, or around that
    have hfront := (List.prefix_concat_iff.mp hfront).resolve_left hne
    exact ⟨(hskipped _).mp (haround above other hfront).1, (hpassed _ _).mp (haround above other hfront).2⟩
  · rintro ⟨⟨content, hentry, hsize⟩, haround, hkept, hnamed⟩
    obtain rfl | ⟨names, name, rfl⟩ := List.eq_nil_or_concat' path
    · -- the directory itself is no file
      rw [List.append_nil, Tree.isDirectory_iff.mp hroot] at hentry
      cases hentry
    · have hdirectory : t.isDirectory (root ++ names) = true := by
        rw [← List.append_assoc] at hentry
        exact Tree.isDirectory_of_entry?_eq hentry
      refine ⟨⟨names, root ++ names⟩, hreaches.mpr ⟨rfl, hdirectory, fun above other hfront => ?_⟩, ?_⟩
      · have hne : above ++ [other] ≠ names ++ [name] := by
          intro heq
          have hlength := hfront.length_le
          rw [heq, List.length_append, List.length_singleton] at hlength
          exact absurd hlength (Nat.not_succ_le_self _)
        obtain ⟨hname, hpath⟩ := haround above other (hfront.trans (List.prefix_append _ _)) hne
        exact ⟨(hskipped _).mpr hname, (hpassed _ _).mpr hpath⟩
      · refine (Search.mem_documents_below_iff hlinks).mpr ⟨name, content, hentry, (hpassed _ _).mpr hkept, ?_, ?_, rfl⟩
        · exact h.accepts_iff.mpr hnamed
        · exact h.maxSize.symm ▸ hsize

end Linkless

/-- **The documents below a directory with no links are found,** in order and each once, whatever else lies there. -/
theorem mem_documents_iff_isDocument {settings : Settings} (hvalid : settings.HasValidPatterns) {t : Tree}
    {directory : Path} {root : Text}
    (hlinks : ∀ start, t.directory? directory root = some start →
      ∀ names target, t.entry? (start ++ names) ≠ some (.link target)) :
    ∃ selection paths, Selection.ofSettings settings = .ok selection ∧
      documents t directory root selection = .ok paths ∧ paths.Pairwise (· < ·) ∧
        ∀ path, path ∈ paths ↔
          ∃ start, t.directory? directory root = some start ∧ IsDocument t start settings path := by
  obtain ⟨selection, hselection, hfollows⟩ := Selection.exists_ofSettings hvalid
  refine ⟨selection, ?_⟩
  cases hstart : t.directory? directory root with
  | none => exact ⟨[], hselection, documents_of_directory?_eq_none hstart selection, .nil, by simp⟩
  | some start =>
    have hdirectory : t.isDirectory start = true := Tree.isDirectory_iff.mpr (Tree.directory?_eq_some_iff.mp hstart).2
    have hstop := hlinks start hstart
    cases hrun : (searchFrom t start selection).run t.directories [⟨[], start⟩] [] with
    | error e =>
      -- the search would have taken a link
      obtain ⟨stop, next, hreached, name, target, hentry, -⟩ :=
        ((Search.exists_run_eq_error_iff hdirectory).mp ⟨e, hrun⟩).exists_takesLink
      rw [((Search.reaches_iff hstop hdirectory).mp hreached).1, List.append_assoc] at hentry
      exact absurd hentry (hstop _ target)
    | ok found =>
      obtain ⟨hnodup, hmem⟩ := Search.found_of_run hrun
      refine ⟨found.mergeSort Path.le, hselection, ?_, ?_, fun path => ?_⟩
      · rw [documents_of_directory? hstart, hrun]
        rfl
      · exact Sorted.pairwise_mergeSort_of_nodup hnodup
      · rw [List.mem_mergeSort, hmem, exists_reaches_iff_isDocument hstop hdirectory hfollows]
        simp

/-- A document beside notes, and a file that was made from it. -/
def builtTree : Tree :=
  ((Tree.empty.put? ["guide.md".toList] (.file ByteArray.empty)).bind fun t =>
    (t.put? ["notes.txt".toList] (.file ByteArray.empty)).bind fun t =>
      t.put? ["target".toList, "guide.md".toList] (.file ByteArray.empty)).getD .empty

/-- Settings by which notes are documents, unless they are old. -/
def notesSettings : Settings := ⟨none, ["*.txt".toList], ["old/".toList], 100, false⟩

theorem mem_documents_iff_isDocument_builtTree :
    notesSettings.HasValidPatterns ∧
      (∀ start, builtTree.directory? [] [] = some start →
        ∀ names target, builtTree.entry? (start ++ names) ≠ some (.link target)) ∧
      ∃ selection paths, Selection.ofSettings notesSettings = .ok selection ∧
        documents builtTree [] [] selection = .ok paths ∧ paths.Pairwise (· < ·) ∧
          ∀ path, path ∈ paths ↔
            ∃ start, builtTree.directory? [] [] = some start ∧ IsDocument builtTree start notesSettings path := by
  have hvalid : notesSettings.HasValidPatterns := by decide +kernel
  have hlinks : ∀ start, builtTree.directory? [] [] = some start →
      ∀ names target, builtTree.entry? (start ++ names) ≠ some (.link target) := by
    intro start _ names target hentry
    have hentries : builtTree.entries =
        [(["target".toList, "guide.md".toList], .file ByteArray.empty), (["target".toList], .directory),
          (["notes.txt".toList], .file ByteArray.empty), (["guide.md".toList], .file ByteArray.empty)] := rfl
    rcases Tree.entry?_eq_some_iff.mp hentry with ⟨-, hroot⟩ | hmem
    · cases hroot
    · simp [hentries] at hmem
  exact ⟨hvalid, hlinks, mem_documents_iff_isDocument hvalid hlinks⟩

end Discovery

end Excerpt
