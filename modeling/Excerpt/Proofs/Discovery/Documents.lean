import Excerpt.Discovery.Walk
import Excerpt.Proofs.Tree.Listing

/-!
# Excerpt — the documents that are found

The search goes from directory to directory and keeps to the paths that it has come by. Each document that it finds is
a file, and its path leads to it from the directory in which the search begins. When files are written, the search
takes the same way again; it can only miss documents that have become too large, if none has become small enough.

* **`Discovery.Search.mem_next_iff`**, **`Discovery.Search.mem_documents_iff`** — where the search goes on from a
  directory, and what it finds in it.
* **`Discovery.Search.run_forall`** — what holds of the first stops and is carried on holds of everything found.
* **`Discovery.exists_place_of_mem_documents`** — where a document lies, and that it is not too large.
* **`Discovery.Search.run_revision`** — the search in a tree with other contents of its files.
* **`Discovery.documents_revision`** — the documents are among those that were found before.
-/

namespace Excerpt

namespace Discovery

variable {t : Tree}

/-- What the search comes to in a directory lies where the name leads to. -/
theorem leads_of_target? {place target : Path} {name : Text} {entry entry' : Entry}
    (hentry : t.entry? (place ++ [name]) = some entry) (h : target? t place name entry = some (target, entry')) :
    t.Leads place [name] target ∧ t.entry? target = some entry' := by
  have hname := Tree.isName_of_entry?_eq hentry
  have hplace := Tree.isDirectory_of_entry?_eq hentry
  obtain ⟨hempty, hdot, hdots, -⟩ := Path.isName_iff.mp hname
  have hother : (∀ target, entry ≠ .link target) → target? t place name entry = some (place ++ [name], entry) →
      t.Leads place [name] target ∧ t.entry? target = some entry' := by
    intro hlink hhere
    obtain ⟨rfl, rfl⟩ := Prod.mk.inj (Option.some.inj (hhere.symm.trans h))
    exact ⟨.enter hplace ⟨hempty, hdot, hdots⟩ hentry hlink (.here _), hentry⟩
  cases entry with
  | file content => exact hother (fun _ => nofun) rfl
  | directory => exact hother (fun _ => nofun) rfl
  | link written =>
    obtain ⟨hthere, hfound⟩ := Tree.find?_eq_some_iff.mp h
    have hleads := Tree.Leads.of_locate hthere
    rw [Tree.start, Path.isAbsolute_name hname, Path.steps_name hname] at hleads
    exact ⟨hleads, hfound⟩

namespace Search

variable {search : Search}

theorem descend?_eq_some_iff {stop next : Stop} {name : Text} {entry : Entry} :
    search.descend? stop name entry = some next ↔
      ∃ place, target? search.tree stop.place name entry = some (place, .directory) ∧
        Selection.isSkippedName name = false ∧ search.passesOver (stop.path ++ [name]) true = false ∧
        next = ⟨stop.path ++ [name], place⟩ := by
  unfold descend?
  constructor
  · intro h
    split at h
    · next place htarget =>
      dsimp only at h
      split at h
      · cases h
      · next hcounts =>
        obtain ⟨hname, hpath⟩ : Selection.isSkippedName name = false ∧
            search.passesOver (stop.path ++ [name]) true = false := by simpa using hcounts
        exact ⟨place, htarget, hname, hpath, (Option.some.inj h).symm⟩
    · cases h
  · rintro ⟨place, htarget, hname, hpath, rfl⟩
    simp [htarget, hname, hpath]

theorem document?_eq_some_iff {stop : Stop} {name : Text} {entry : Entry} {path : Path} :
    search.document? stop name entry = some path ↔
      ∃ place content, target? search.tree stop.place name entry = some (place, .file content) ∧
        search.passesOver (stop.path ++ [name]) false = false ∧
        search.selection.accepts (stop.path ++ [name]) = true ∧ content.size ≤ search.selection.maxSize ∧
        path = stop.path ++ [name] := by
  unfold document?
  constructor
  · intro h
    split at h
    · next place content htarget =>
      dsimp only at h
      split at h
      · next hcounts =>
        obtain ⟨⟨hpath, haccepted⟩, hsize⟩ : (search.passesOver (stop.path ++ [name]) false = false ∧
            search.selection.accepts (stop.path ++ [name]) = true) ∧ content.size ≤ search.selection.maxSize := by
          simpa using hcounts
        exact ⟨place, content, htarget, hpath, haccepted, hsize, (Option.some.inj h).symm⟩
      · cases h
    · cases h
  · rintro ⟨place, content, htarget, hpath, haccepted, hsize, rfl⟩
    simp [htarget, hpath, haccepted, hsize]

/-- **Where the search goes on** from a directory: where a name in it leads to a directory that counts. -/
theorem mem_next_iff {stop next : Stop} :
    next ∈ search.next stop ↔
      ∃ name entry, search.tree.entry? (stop.place ++ [name]) = some entry ∧
        search.descend? stop name entry = some next := by
  unfold Search.next
  rw [List.mem_filterMap]
  constructor
  · rintro ⟨⟨name, entry⟩, hchild, hdescend⟩
    exact ⟨name, entry, Tree.mem_children_iff.mp hchild, hdescend⟩
  · rintro ⟨name, entry, hentry, hdescend⟩
    exact ⟨(name, entry), Tree.mem_children_iff.mpr hentry, hdescend⟩

/-- **What the search finds in a directory:** where a name in it leads to a file that is a document. -/
theorem mem_documents_iff {stop : Stop} {path : Path} :
    path ∈ search.documents stop ↔
      ∃ name entry, search.tree.entry? (stop.place ++ [name]) = some entry ∧
        search.document? stop name entry = some path := by
  unfold Search.documents
  rw [List.mem_filterMap]
  constructor
  · rintro ⟨⟨name, entry⟩, hchild, hdocument⟩
    exact ⟨name, entry, Tree.mem_children_iff.mp hchild, hdocument⟩
  · rintro ⟨name, entry, hentry, hdocument⟩
    exact ⟨(name, entry), Tree.mem_children_iff.mpr hentry, hdocument⟩

/-- What holds of the stops where the search begins, and of those where it goes on, holds of all of them, and so does
what holds of the documents there. Induction on the search. -/
theorem run_forall {P : Stop → Prop} {Q : Path → Prop} (hnext : ∀ stop, P stop → ∀ next ∈ search.next stop, P next)
    (hdocuments : ∀ stop, P stop → ∀ path ∈ search.documents stop, Q path) {unseen : List Path} {pending : List Stop}
    {found result : List Path} (hpending : ∀ stop ∈ pending, P stop) (hfound : ∀ path ∈ found, Q path)
    (h : search.run unseen pending found = .ok result) : ∀ path ∈ result, Q path := by
  fun_induction run search unseen pending found with
  | case1 unseen found =>
    obtain rfl := Except.ok.inj h
    exact hfound
  | case2 unseen found stop rest hseen ih =>
    obtain ⟨hstop, hrest⟩ := List.forall_mem_cons.mp hpending
    exact ih (List.forall_mem_append.mpr ⟨hnext stop hstop, hrest⟩)
      (List.forall_mem_append.mpr ⟨hdocuments stop hstop, hfound⟩) h
  | case3 => cases h

end Search

/-- The path leads to a file from a directory, by names, and the file is not too large. -/
structure LeadsToDocument (t : Tree) (root : Path) (maxSize : Nat) (path : Path) (place : Path) : Prop where
  names : ∀ name ∈ path, Path.isName name
  nonempty : path ≠ []
  leads : t.Leads root path place
  file : ∃ content, t.entry? place = some (.file content) ∧ content.size ≤ maxSize

/-- The search came to the stop from a directory, by names. -/
structure LeadsToStop (t : Tree) (root : Path) (stop : Stop) : Prop where
  names : ∀ name ∈ stop.path, Path.isName name
  leads : t.Leads root stop.path stop.place

theorem LeadsToStop.next {search : Search} {root : Path} {stop next : Stop}
    (h : LeadsToStop search.tree root stop) (hnext : next ∈ search.next stop) : LeadsToStop search.tree root next := by
  obtain ⟨name, entry, hentry, hdescend⟩ := Search.mem_next_iff.mp hnext
  obtain ⟨place, htarget, -, -, rfl⟩ := Search.descend?_eq_some_iff.mp hdescend
  refine ⟨List.forall_mem_append.mpr ⟨h.names, ?_⟩, ?_⟩
  · simpa using Tree.isName_of_entry?_eq hentry
  · exact Tree.leads_append.mpr ⟨stop.place, h.leads, (leads_of_target? hentry htarget).1⟩

theorem LeadsToStop.document {search : Search} {root path : Path} {stop : Stop} (h : LeadsToStop search.tree root stop)
    (hpath : path ∈ search.documents stop) :
    ∃ place, LeadsToDocument search.tree root search.selection.maxSize path place := by
  obtain ⟨name, entry, hentry, hdocument⟩ := Search.mem_documents_iff.mp hpath
  obtain ⟨place, content, htarget, -, -, hsize, rfl⟩ := Search.document?_eq_some_iff.mp hdocument
  -- the last step is the name of the file, those before it are the way of the stop
  obtain ⟨hleads, hfile⟩ := leads_of_target? hentry htarget
  refine ⟨place, List.forall_mem_append.mpr ⟨h.names, ?_⟩, by simp, ?_, content, hfile, hsize⟩
  · simpa using Tree.isName_of_entry?_eq hentry
  · exact Tree.leads_append.mpr ⟨stop.place, h.leads, hleads⟩

/-- The search that begins in a directory of a tree. -/
def searchFrom (t : Tree) (start : Path) (selection : Selection) : Search :=
  ⟨t, if selection.useIgnoreFile then ignoredIn t start else [], selection⟩

theorem documents_of_directory? {directory start : Path} {root : Text} (h : t.directory? directory root = some start)
    (selection : Selection) :
    documents t directory root selection =
      ((searchFrom t start selection).run t.directories [⟨[], start⟩] []).map fun found => found.mergeSort Path.le := by
  unfold documents
  rw [h]
  rfl

theorem documents_of_directory?_eq_none {directory : Path} {root : Text} (h : t.directory? directory root = none)
    (selection : Selection) : documents t directory root selection = .ok [] := by
  unfold documents
  rw [h]

/-- **Where a document lies, and that it is not too large.** -/
theorem exists_place_of_mem_documents {directory : Path} {root : Text} {selection : Selection} {paths : List Path}
    (h : documents t directory root selection = .ok paths) {path : Path} (hpath : path ∈ paths) :
    ∃ start place, t.directory? directory root = some start ∧
      LeadsToDocument t start selection.maxSize path place := by
  cases hstart : t.directory? directory root with
  | none =>
    rw [documents_of_directory?_eq_none hstart] at h
    obtain rfl := Except.ok.inj h
    cases hpath
  | some start =>
    rw [documents_of_directory? hstart] at h
    cases hrun : (searchFrom t start selection).run t.directories [⟨[], start⟩] [] with
    | error e =>
      rw [hrun] at h
      cases h
    | ok result =>
      rw [hrun] at h
      obtain rfl := Except.ok.inj h
      have hfirst : LeadsToStop t start ⟨[], start⟩ := ⟨by simp, .here start⟩
      have hall := Search.run_forall (fun _ hstop _ hnext => hstop.next hnext)
        (fun _ hstop _ hpath => hstop.document hpath) (List.forall_mem_singleton.mpr hfirst) (by simp) hrun
      obtain ⟨place, hplace⟩ := hall path (List.mem_mergeSort.mp hpath)
      exact ⟨start, place, rfl, hplace⟩

/-! ## When files were written -/

section Revision

variable {t' : Tree} {f : Path → ByteArray → ByteArray}

theorem target?_eq (h : Tree.LiesAlike f t t') (place : Path) (name : Text) (entry : Entry) :
    target? t' place name (entry.revise (f (place ++ [name]))) =
      (target? t place name entry).map fun e => (e.1, e.2.revise (f e.1)) := by
  cases entry with
  | file content => rfl
  | directory => rfl
  | link written => exact h.find?_eq place name

namespace Search

variable {ignored : List IgnoreRule} {selection : Selection}

/-- The search goes on to where it did before. -/
theorem descend?_eq (h : Tree.LiesAlike f t t') (stop : Stop) (name : Text) (entry : Entry) :
    descend? ⟨t', ignored, selection⟩ stop name (entry.revise (f (stop.place ++ [name]))) =
      descend? ⟨t, ignored, selection⟩ stop name entry := by
  unfold descend?
  dsimp only
  rw [target?_eq h]
  cases target? t stop.place name entry with
  | none => rfl
  | some found =>
    obtain ⟨place, entry⟩ := found
    cases entry <;> rfl

/-- The search takes the same way. -/
theorem next_eq (h : Tree.IsRevision f t t') (stop : Stop) :
    next ⟨t', ignored, selection⟩ stop = next ⟨t, ignored, selection⟩ stop := by
  unfold next
  dsimp only
  rw [h.children_eq, List.filterMap_map]
  exact congrArg (List.filterMap · (t.children stop.place)) (funext fun e => descend?_eq h.liesAlike stop e.1 e.2)

/-- A file that is found in a directory was found there before, where no file has become small enough. -/
theorem documents_subset (h : Tree.IsRevision f t t')
    (hlarge : ∀ place content, t.entry? place = some (.file content) → selection.maxSize < content.size →
      selection.maxSize < (f place content).size) (stop : Stop) :
    documents ⟨t', ignored, selection⟩ stop ⊆ documents ⟨t, ignored, selection⟩ stop := by
  intro path hpath
  obtain ⟨name, entry', hentry', hdocument⟩ := mem_documents_iff.mp hpath
  obtain ⟨place, content', htarget', hkept, haccepted, hsize, rfl⟩ := document?_eq_some_iff.mp hdocument
  dsimp only at hentry' htarget'
  rw [h.liesAlike] at hentry'
  obtain ⟨entry, hentry, rfl⟩ := Option.map_eq_some_iff.mp hentry'
  rw [target?_eq h.liesAlike] at htarget'
  obtain ⟨⟨place', found⟩, htarget, hfound⟩ := Option.map_eq_some_iff.mp htarget'
  obtain ⟨rfl, hrevised⟩ := Prod.mk.inj hfound
  dsimp only at hrevised
  cases found with
  | directory => cases hrevised
  | link written => cases hrevised
  | file content =>
    obtain rfl := Entry.file.inj hrevised
    -- it is accepted by its path as before, and was not too large before
    have hsmall : content.size ≤ selection.maxSize := by
      by_contra hbig
      exact absurd hsize (Nat.not_le.mpr (hlarge _ content (leads_of_target? hentry htarget).2 (Nat.not_le.mp hbig)))
    refine mem_documents_iff.mpr ⟨name, entry, hentry, document?_eq_some_iff.mpr ?_⟩
    exact ⟨_, content, htarget, hkept, haccepted, hsmall, rfl⟩

/-- **The search in a tree with other contents of its files** comes to the same directories, and finds only what it
found before. Induction on the search. -/
theorem run_revision (h : Tree.IsRevision f t t')
    (hlarge : ∀ place content, t.entry? place = some (.file content) → selection.maxSize < content.size →
      selection.maxSize < (f place content).size) {unseen : List Path} {pending : List Stop}
    {found found' result : List Path} (hfound : found' ⊆ found)
    (hrun : run ⟨t, ignored, selection⟩ unseen pending found = .ok result) :
    ∃ result', run ⟨t', ignored, selection⟩ unseen pending found' = .ok result' ∧ result' ⊆ result := by
  fun_induction run ⟨t, ignored, selection⟩ unseen pending found generalizing found' with
  | case1 unseen found =>
    obtain rfl := Except.ok.inj hrun
    exact ⟨found', by rw [run], hfound⟩
  | case2 unseen found stop rest hseen ih =>
    rw [run, dif_pos hseen, next_eq h]
    refine ih (List.append_subset.mpr ⟨?_, ?_⟩) hrun
    · exact List.subset_append_of_subset_left _ (documents_subset h hlarge stop)
    · exact List.subset_append_of_subset_right _ hfound
  | case3 => cases hrun

end Search

/-- **The documents are among those that were found before**, where the ignore file is as it was and no file that was
too large has become small enough. -/
theorem documents_revision (h : Tree.IsRevision f t t') {directory : Path} {root : Text} {selection : Selection}
    {paths : List Path} (hignored : ∀ start, t.directory? directory root = some start →
      Tree.IsRevision.Keeps f t start ".gitignore".toList)
    (hlarge : ∀ place content, t.entry? place = some (.file content) → selection.maxSize < content.size →
      selection.maxSize < (f place content).size)
    (hdocuments : documents t directory root selection = .ok paths) :
    ∃ paths', documents t' directory root selection = .ok paths' ∧ paths' ⊆ paths := by
  cases hstart : t.directory? directory root with
  | none =>
    rw [documents_of_directory?_eq_none (by rwa [h.liesAlike.directory?_eq])]
    exact ⟨[], rfl, List.nil_subset _⟩
  | some start =>
    have hrules : searchFrom t' start selection =
        ⟨t', if selection.useIgnoreFile then ignoredIn t start else [], selection⟩ := by
      unfold searchFrom ignoredIn
      rw [h.liesAlike.readBytes_eq_of_keeps (hignored start hstart)]
    rw [documents_of_directory? hstart] at hdocuments
    rw [documents_of_directory? (by rwa [h.liesAlike.directory?_eq]), h.directories_eq, hrules]
    cases hrun : (searchFrom t start selection).run t.directories [⟨[], start⟩] [] with
    | error e =>
      rw [hrun] at hdocuments
      cases hdocuments
    | ok result =>
      rw [hrun] at hdocuments
      obtain rfl := Except.ok.inj hdocuments
      obtain ⟨result', hrun', hsubset⟩ := Search.run_revision h hlarge (List.Subset.refl _) hrun
      rw [hrun']
      exact ⟨_, rfl, fun path hpath => List.mem_mergeSort.mpr (hsubset (List.mem_mergeSort.mp hpath))⟩

end Revision

end Discovery

end Excerpt
