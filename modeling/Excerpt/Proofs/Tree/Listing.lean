import Excerpt.Proofs.Tree.Revision
import Mathlib.Data.List.Induction

/-!
# Excerpt — what lies in a directory

A tree lists its entries in some order. What is listed in a directory is what lies there, each name once; and what lies
at a place, and so where written paths lead, does not depend on the order.

* **`Tree.entry?_eq_some_iff`** — what lies at a place is the root or listed.
* **`Tree.leads_of_isDirectory`** — a directory is where its names lead.
* **`Tree.locate_name`** — what lies in a directory is where its name leads.
* **`Tree.mem_children_iff`**, **`Tree.pairwise_children`** — what is listed in a directory.
* **`Tree.mem_directories_iff`**, **`Tree.nodup_directories`** — all directories, each once.
* **`Tree.liesAlike_of_perm`**, **`Tree.children_perm`** — trees that list their entries in another order.
-/

namespace Excerpt.Tree

variable {t t' : Tree}

/-! ## What is listed -/

theorem entry?_eq_some_iff {path : Path} {entry : Entry} :
    t.entry? path = some entry ↔ path = [] ∧ entry = .directory ∨ (path, entry) ∈ t.entries := by
  unfold entry?
  split
  · next hempty =>
    obtain rfl := List.isEmpty_iff.mp hempty
    simp [t.proper, eq_comm]
  · next hpath =>
    constructor
    · exact fun h => Or.inr (mem_of_lookup h)
    · rintro (⟨rfl, -⟩ | h)
      · simp at hpath
      · obtain ⟨before, after, hentries⟩ := List.append_of_mem h
        refine List.lookup_eq_some_iff.mpr ⟨before, after, hentries, fun e he => ?_⟩
        -- a path occurs once
        have hdistinct := t.distinct
        rw [hentries, List.map_append, List.map_cons, List.nodup_append] at hdistinct
        have hne := hdistinct.2.2 e.1 (List.mem_map_of_mem he) path List.mem_cons_self
        simpa using Ne.symm hne

theorem isDirectory_iff {path : Path} : t.isDirectory path = true ↔ t.entry? path = some .directory := by
  unfold isDirectory
  rw [Option.any_eq_true]
  constructor
  · rintro ⟨entry, hentry, hdirectory⟩
    rw [hentry, Entry.isDirectory_iff.mp hdirectory]
  · exact fun h => ⟨.directory, h, rfl⟩

/-- What is around something in a tree is a directory. -/
theorem isDirectory_of_entry?_eq {place : Path} {name : Text} {entry : Entry}
    (h : t.entry? (place ++ [name]) = some entry) : t.isDirectory place = true := by
  rcases entry?_eq_some_iff.mp h with ⟨hempty, -⟩ | hmem
  · simp at hempty
  · refine isDirectory_iff.mpr (entry?_eq_some_iff.mpr ?_)
    exact (t.rooted place name entry hmem).imp (⟨·, rfl⟩) id

/-- What is around a directory is one. Induction on what lies between. -/
theorem isDirectory_of_append {place names : Path} (h : t.isDirectory (place ++ names) = true) :
    t.isDirectory place = true := by
  induction names using List.reverseRecOn with
  | nil => rwa [List.append_nil] at h
  | append_singleton names name ih =>
    rw [← List.append_assoc] at h
    exact ih (isDirectory_of_entry?_eq (isDirectory_iff.mp h))

theorem isName_of_entry?_eq {place : Path} {name : Text} {entry : Entry} (h : t.entry? (place ++ [name]) = some entry) :
    Path.isName name = true := by
  rcases entry?_eq_some_iff.mp h with ⟨hempty, -⟩ | hmem
  · simp at hempty
  · exact t.named place name entry hmem

/-- The names of a directory lead to it, through no links. Induction on the names. -/
theorem leads_of_isDirectory {place names : Path} (h : t.isDirectory (place ++ names) = true) :
    t.Leads place names (place ++ names) := by
  induction names generalizing place with
  | nil =>
    rw [List.append_nil]
    exact .here place
  | cons name names ih =>
    rw [List.append_cons] at h ⊢
    have hentry := isDirectory_iff.mp (isDirectory_of_append h)
    obtain ⟨hempty, hdot, hdots, -⟩ := Path.isName_iff.mp (isName_of_entry?_eq hentry)
    exact .enter (isDirectory_of_entry?_eq hentry) ⟨hempty, hdot, hdots⟩ hentry (fun _ => nofun) (ih h)

/-- A name leads to what lies there, where that is no link. -/
theorem locate_name {place : Path} {name : Text} (hplace : t.isDirectory place = true)
    (hname : Path.isName name = true) (hwidth : Text.width name ≤ nameLimit)
    (hlink : ∀ target, t.entry? (place ++ [name]) ≠ some (.link target)) :
    t.locate place name =
      match t.entry? (place ++ [name]) with
      | none => .error .missing
      | some _ => .ok (place ++ [name]) := by
  obtain ⟨hempty, hdot, hdots, -⟩ := Path.isName_iff.mp hname
  have hnul : name.contains '\x00' = false := by simpa using (Path.isName_iff.mp hname).2.2.2.2
  unfold locate
  rw [hnul, Path.isAbsolute_name hname, Path.steps_name hname]
  simp only [Bool.false_eq_true, if_false, linkLimit, follow, walk, hplace, Bool.not_true, hempty, hdot, hdots,
    decide_false, Bool.or_false, Nat.not_lt.mpr hwidth]
  cases hentry : t.entry? (place ++ [name]) with
  | none => rfl
  | some entry =>
    cases entry with
    | file content => rfl
    | directory => rfl
    | link target => exact absurd hentry (hlink target)

/-- What an entry is in a directory: its name there, if it lies directly in it. -/
theorem child_eq_some_iff {place : Path} {name : Text} {entry : Entry} {e : Path × Entry} :
    (match place.isPrefixOf? e.1 with
      | some [name] => some (name, e.2)
      | _ => none) = some (name, entry) ↔ e = (place ++ [name], entry) := by
  obtain ⟨path, found⟩ := e
  dsimp only
  constructor
  · intro h
    split at h
    · next only hrest =>
      obtain ⟨rfl, rfl⟩ := Prod.mk.inj (Option.some.inj h)
      rw [List.isPrefixOf?_eq_some_iff_append_eq.mp hrest]
    · cases h
  · intro h
    obtain ⟨rfl, rfl⟩ := Prod.mk.inj h
    rw [List.isPrefixOf?_eq_some_iff_append_eq.mpr rfl]

/-- **What is listed in a directory** is what lies there under the name. -/
theorem mem_children_iff {place : Path} {name : Text} {entry : Entry} :
    (name, entry) ∈ t.children place ↔ t.entry? (place ++ [name]) = some entry := by
  have hlisted : (name, entry) ∈ t.children place ↔ (place ++ [name], entry) ∈ t.entries := by
    unfold children
    rw [List.mem_filterMap]
    constructor
    · rintro ⟨e, he, hchild⟩
      exact child_eq_some_iff.mp hchild ▸ he
    · exact fun h => ⟨_, h, child_eq_some_iff.mpr rfl⟩
  rw [hlisted, entry?_eq_some_iff]
  simp

/-- A name is listed once in a directory. -/
theorem pairwise_children (t : Tree) (place : Path) : (t.children place).Pairwise fun a b => a.1 ≠ b.1 := by
  unfold children
  refine List.pairwise_filterMap.mpr ((List.pairwise_map.mp t.distinct).imp ?_)
  rintro e f hne ⟨name, entry⟩ hfirst ⟨other, entry'⟩ hsecond
  rw [child_eq_some_iff.mp hfirst, child_eq_some_iff.mp hsecond] at hne
  exact fun heq => hne (congrArg (fun last => place ++ [last]) heq)

theorem mem_directories_iff {place : Path} : place ∈ t.directories ↔ t.isDirectory place = true := by
  rw [isDirectory_iff, entry?_eq_some_iff, directories, List.mem_cons, List.mem_filterMap]
  refine or_congr (by simp) ⟨?_, ?_⟩
  · rintro ⟨⟨path, entry⟩, hmem, hfound⟩
    dsimp only at hfound
    split at hfound
    · next hdirectory =>
      obtain rfl := Option.some.inj hfound
      exact Entry.isDirectory_iff.mp hdirectory ▸ hmem
    · cases hfound
  · exact fun h => ⟨_, h, rfl⟩

theorem nodup_directories (t : Tree) : t.directories.Nodup := by
  unfold directories
  refine List.nodup_cons.mpr ⟨?_, ?_⟩
  · intro hmem
    obtain ⟨⟨path, entry⟩, hmem, hfound⟩ := List.mem_filterMap.mp hmem
    dsimp only at hfound
    split at hfound
    · obtain rfl := Option.some.inj hfound
      exact t.proper entry hmem
    · cases hfound
  · refine List.pairwise_filterMap.mpr ((List.pairwise_map.mp t.distinct).imp ?_)
    rintro e f hne path hfirst other hsecond
    dsimp only at hfirst hsecond
    split at hfirst
    · split at hsecond
      · rwa [Option.some.inj hfirst, Option.some.inj hsecond] at hne
      · cases hsecond
    · cases hfirst

/-! ## Another order -/

section Order

variable (h : t'.entries.Perm t.entries)

include h

/-- **What lies at a place does not depend on the order** in which the entries are listed. -/
theorem liesAlike_of_perm : LiesAlike (fun _ content => content) t t' := by
  intro path
  have hsame : t'.entry? path = t.entry? path :=
    Option.ext fun entry => by rw [entry?_eq_some_iff, entry?_eq_some_iff, h.mem_iff]
  rw [hsame]
  cases t.entry? path with
  | none => rfl
  | some entry => exact congrArg some entry.revise_id.symm

theorem children_perm (place : Path) : (t'.children place).Perm (t.children place) := h.filterMap _

end Order

/-- The tree with its entries listed the other way round. -/
def reversed (t : Tree) : Tree where
  entries := t.entries.reverse
  distinct := ((List.reverse_perm t.entries).map Prod.fst).nodup_iff.mpr t.distinct
  proper entry := by
    rw [List.mem_reverse]
    exact t.proper entry
  rooted path name entry := by
    rw [List.mem_reverse, List.mem_reverse]
    exact t.rooted path name entry
  named path name entry := by
    rw [List.mem_reverse]
    exact t.named path name entry

end Excerpt.Tree
