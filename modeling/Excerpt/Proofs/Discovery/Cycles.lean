import Excerpt.Proofs.Discovery.Visits

/-!
# Excerpt — searches that end in a cycle of links

The search takes a directory that it was in before for the sign of a cycle. It fails where it is led to one directory by
two paths, whatever the order in which the entries of directories are listed. Without links this cannot happen, and a
link to a directory that the search has come through always makes it happen; but so does a link to a directory beside
it, from which nothing leads back.

* **`Discovery.Search.TakesLink`**, **`Discovery.Search.ComesTwice`** — the search goes through a link, and comes to one
  directory by two paths.
* **`Discovery.Search.exists_run_eq_error_iff`** — when a search fails.
* **`Discovery.Search.ComesTwice.exists_takesLink`** — without links there is one path to a directory.
* **`Discovery.Search.comesTwice_of_above`** — a link to a directory on the way to it is a second path there.
* **`Discovery.searchFrom_comesTwice_iff`** — the order of the entries does not matter.
* **`Discovery.documents_fails_iff`** — when the search for documents fails.
* **`Discovery.documents_linkToSibling`** — it also fails where no link leads back.
-/

namespace Excerpt.Discovery

namespace Search

variable {search : Search} {start stop next : Stop}

/-- The search goes on from one stop to another one through a link. -/
def TakesLink (search : Search) (stop next : Stop) : Prop :=
  ∃ name target, search.tree.entry? (stop.place ++ [name]) = some (.link target) ∧
    search.descend? stop name (.link target) = some next

theorem TakesLink.mem_next (h : search.TakesLink stop next) : next ∈ search.next stop := by
  obtain ⟨name, target, hentry, hdescend⟩ := h
  exact mem_next_iff.mpr ⟨name, .link target, hentry, hdescend⟩

/-- The search is led to one directory by two paths. -/
def ComesTwice (search : Search) (start : Stop) : Prop :=
  ∃ first second, search.Reaches start first ∧ search.Reaches start second ∧ first.path ≠ second.path ∧
    first.place = second.place

/-- **A search fails if and only if it is led to one directory by two paths.** -/
theorem exists_run_eq_error_iff (h : search.tree.isDirectory start.place = true) :
    (∃ e, search.run search.tree.directories [start] [] = .error e) ↔ search.ComesTwice start := by
  constructor
  · rintro ⟨e, hrun⟩
    have hseen : ∀ place, search.tree.isDirectory place = true →
        place ∈ search.tree.directories ∨ ∃ s ∈ ([] : List Stop), s.place = place :=
      fun place hplace => Or.inl (Tree.mem_directories_iff.mpr hplace)
    obtain ⟨first, second, hfirst, hsecond, hne, hplace⟩ := exists_twice_of_run ⟨List.pairwise_singleton _ _, by simp⟩
      hseen (by simp) (List.forall_mem_singleton.mpr ⟨.refl, h⟩) hrun
    exact ⟨first, second, hfirst, hsecond, hne, hplace⟩
  · rintro ⟨first, second, hfirst, hsecond, hne, hplace⟩
    cases hrun : search.run search.tree.directories [start] [] with
    | error e => exact ⟨e, rfl⟩
    | ok result =>
      obtain ⟨visited, hvisits, -⟩ := exists_visits_of_run (Tree.nodup_directories _) hrun
      have hmem : ∀ stop, search.Reaches start stop → stop ∈ visited :=
        fun stop hstop => (hvisits.mem_iff stop).mpr ⟨start, List.mem_singleton_self _, hstop⟩
      -- the places of the stops that were visited are all different
      have hsame := List.inj_on_of_nodup_map hvisits.once (hmem first hfirst) (hmem second hsecond) hplace
      exact absurd (congrArg Stop.path hsame) hne

/-- A set of stops that the search does not leave holds all that are reached from one of them. -/
theorem mem_of_reaches {stops : List Stop} (hclosed : ∀ s ∈ stops, ∀ next ∈ search.next s, next ∈ stops)
    (hstart : start ∈ stops) (h : search.Reaches start stop) : stop ∈ stops := by
  induction h with
  | refl => exact hstart
  | tail _ hnext ih => exact hclosed _ ih _ hnext

/-! ## Where links lead -/

/-- The path by which the search comes to a directory goes on from where it began. -/
theorem prefix_of_reaches (h : search.Reaches start stop) : start.path <+: stop.path := by
  induction h with
  | refl => exact List.prefix_refl _
  | tail _ hnext ih =>
    obtain ⟨name, hpath⟩ := exists_path_of_mem_next hnext
    exact hpath ▸ ih.trans (List.prefix_append _ _)

/-- Where no links are taken, a path leads to where it says. Induction on the way. -/
theorem exists_place_of_reaches (hlinks : ∀ stop next, search.Reaches start stop → ¬ search.TakesLink stop next)
    (h : search.Reaches start stop) : ∃ names, stop.path = start.path ++ names ∧ stop.place = start.place ++ names := by
  induction h with
  | refl => exact ⟨[], by simp, by simp⟩
  | @tail stop next hstop hnext ih =>
    obtain ⟨names, hpath, hplace⟩ := ih
    obtain ⟨name, entry, hentry, hdescend⟩ := mem_next_iff.mp hnext
    obtain ⟨place, htarget, -, -, rfl⟩ := descend?_eq_some_iff.mp hdescend
    refine ⟨names ++ [name], by simp [hpath], ?_⟩
    cases entry with
    | file content => cases htarget
    | link target => exact absurd ⟨name, target, hentry, hdescend⟩ (hlinks _ _ hstop)
    | directory =>
      obtain ⟨rfl, -⟩ := Prod.mk.inj (Option.some.inj htarget)
      simp [hplace]

/-- **Without links there is one path to a directory.** -/
theorem ComesTwice.exists_takesLink (h : search.ComesTwice start) :
    ∃ stop next, search.Reaches start stop ∧ search.TakesLink stop next := by
  by_contra hnone
  push Not at hnone
  obtain ⟨first, second, hfirst, hsecond, hne, hplace⟩ := h
  obtain ⟨names, hpath, hthere⟩ := exists_place_of_reaches hnone hfirst
  obtain ⟨names', hpath', hthere'⟩ := exists_place_of_reaches hnone hsecond
  rw [hplace, hthere', List.append_cancel_left_eq] at hthere
  exact hne (by rw [hpath, hpath', hthere])

/-- **A directory on the way to a link that leads there is come to twice.** -/
theorem comesTwice_of_above {above : Stop} (habove : search.Reaches start above) (hstop : search.Reaches above stop)
    (hnext : next ∈ search.next stop) (hplace : next.place = above.place) : search.ComesTwice start := by
  refine ⟨above, next, habove, (habove.trans hstop).tail hnext, fun hpath => ?_, hplace.symm⟩
  -- the second path is longer
  obtain ⟨name, hlast⟩ := exists_path_of_mem_next hnext
  have hshort := (prefix_of_reaches hstop).length_le
  have hlong := congrArg List.length (hpath.trans hlast)
  rw [List.length_append, List.length_singleton] at hlong
  omega

/-- The search comes to a directory through all that are on its path. Induction on the way. -/
theorem exists_above_of_prefix {names : Path} (h : search.Reaches start stop) (hstart : start.path <+: names)
    (hnames : names <+: stop.path) :
    ∃ above, search.Reaches start above ∧ search.Reaches above stop ∧ above.path = names := by
  induction h with
  | refl => exact ⟨start, .refl, .refl, hstart.eq_of_length (Nat.le_antisymm hstart.length_le hnames.length_le)⟩
  | @tail stop next hstop hnext ih =>
    obtain ⟨name, hpath⟩ := exists_path_of_mem_next hnext
    rw [hpath, List.prefix_concat_iff] at hnames
    rcases hnames with rfl | hnames
    · exact ⟨next, hstop.tail hnext, .refl, hpath⟩
    · obtain ⟨above, habove, hbelow, hsame⟩ := ih hnames
      exact ⟨above, habove, hbelow.tail hnext, hsame⟩

section Places

variable {root : Path}

/-- Where the names of a path lead to a directory through no links, the search comes to it by that path. -/
theorem place_of_reaches (h : search.Reaches ⟨[], root⟩ stop)
    (hdirectory : search.tree.isDirectory (root ++ stop.path) = true) : stop.place = root ++ stop.path :=
  (leadsToStop_of_reaches h).leads.unique (Tree.leads_of_isDirectory hdirectory)

/-- A link that is taken leads back: to a directory that the search has come through on its way to the link, or, where
that way led through no links, to one around the link that is not outside of the root. -/
def LeadsBack (search : Search) (root : Path) (stop next : Stop) : Prop :=
  (∃ above, search.Reaches ⟨[], root⟩ above ∧ search.Reaches above stop ∧ next.place = above.place) ∨
    stop.place = root ++ stop.path ∧ root <+: next.place ∧ next.place <+: stop.place

/-- **A link that leads back is a second path to a directory.** -/
theorem comesTwice_of_leadsBack (hstop : search.Reaches ⟨[], root⟩ stop) (hlink : search.TakesLink stop next)
    (hback : search.LeadsBack root stop next) : search.ComesTwice ⟨[], root⟩ := by
  rcases hback with ⟨above, habove, hbelow, hplace⟩ | ⟨hplace, ⟨names, hnames⟩, haround⟩
  · exact comesTwice_of_above habove hbelow hlink.mem_next hplace
  · -- the directory around the link lies on the path to it
    rw [← hnames, hplace, List.prefix_append_right_inj] at haround
    obtain ⟨above, habove, hbelow, rfl⟩ := exists_above_of_prefix hstop List.nil_prefix haround
    refine comesTwice_of_above habove hbelow hlink.mem_next ?_
    obtain ⟨rest, hrest⟩ := haround
    obtain ⟨name, target, hentry, -⟩ := hlink
    have hdirectory := Tree.isDirectory_of_entry?_eq hentry
    rw [hplace, ← hrest, ← List.append_assoc] at hdirectory
    rw [← hnames, place_of_reaches habove (Tree.isDirectory_of_append hdirectory)]

end Places

end Search

/-! ## Another order of the entries -/

section Order

variable {t t' : Tree} (h : t'.entries.Perm t.entries)

include h

theorem searchFrom_eq_of_perm (start : Path) (selection : Selection) :
    searchFrom t' start selection = ⟨t', (searchFrom t start selection).ignored, selection⟩ := by
  unfold searchFrom ignoredIn
  rw [(Tree.liesAlike_of_perm h).readBytes_eq_of_keeps fun _ _ _ => rfl]

/-- Where the search goes on does not depend on the order. -/
theorem mem_next_of_perm {start : Path} {selection : Selection} {stop next : Stop} :
    next ∈ (searchFrom t' start selection).next stop ↔ next ∈ (searchFrom t start selection).next stop := by
  have halike := Tree.liesAlike_of_perm h
  have hdescend : ∀ name entry, (searchFrom t' start selection).descend? stop name entry =
      (searchFrom t start selection).descend? stop name entry := by
    intro name entry
    rw [searchFrom_eq_of_perm h]
    have hsame := @Search.descend?_eq t t' _ (searchFrom t start selection).ignored selection halike stop name entry
    rwa [Entry.revise_id] at hsame
  unfold Search.next
  simp only [hdescend]
  exact ((Tree.children_perm h stop.place).filterMap _).mem_iff

/-- **Whether the search comes to a directory twice does not depend on the order** in which entries are listed. -/
theorem searchFrom_comesTwice_iff {start : Path} {selection : Selection} {first : Stop} :
    (searchFrom t' start selection).ComesTwice first ↔ (searchFrom t start selection).ComesTwice first := by
  have hreaches : (searchFrom t' start selection).Reaches = (searchFrom t start selection).Reaches := by
    unfold Search.Reaches
    simp only [mem_next_of_perm h]
  unfold Search.ComesTwice
  rw [hreaches]

end Order

/-! ## The search for documents -/

/-- When the search for documents fails, whatever it finds. -/
theorem exists_documents_eq_error_iff {t : Tree} {directory : Path} {root : Text} {selection : Selection} :
    (∃ e, documents t directory root selection = .error e) ↔
      ∃ start, t.directory? directory root = some start ∧ (searchFrom t start selection).ComesTwice ⟨[], start⟩ := by
  cases hstart : t.directory? directory root with
  | none => simp [documents_of_directory?_eq_none hstart]
  | some start =>
    have hdirectory : t.isDirectory start = true := Tree.isDirectory_iff.mpr (Tree.directory?_eq_some_iff.mp hstart).2
    have hrun : (∃ e, (searchFrom t start selection).run t.directories [⟨[], start⟩] [] = .error e) ↔
        (searchFrom t start selection).ComesTwice ⟨[], start⟩ := Search.exists_run_eq_error_iff hdirectory
    simp only [Option.some.injEq, exists_eq_left', ← hrun, documents_of_directory? hstart]
    cases (searchFrom t start selection).run t.directories [⟨[], start⟩] [] <;> simp [Except.map]

/-- **The search for documents fails if and only if it is led to one directory by two paths,** in whatever order the
entries are listed. It is not without links, and it is where it takes a link that leads back. -/
theorem documents_fails_iff {t t' : Tree} (horder : t'.entries.Perm t.entries) (directory : Path) (root : Text)
    (selection : Selection) :
    ((∃ e, documents t' directory root selection = .error e) ↔
        ∃ start, t.directory? directory root = some start ∧
          (searchFrom t start selection).ComesTwice ⟨[], start⟩) ∧
      ∀ start, t.directory? directory root = some start →
        ((∃ e, documents t' directory root selection = .error e) →
            ∃ stop next, (searchFrom t start selection).Reaches ⟨[], start⟩ stop ∧
              (searchFrom t start selection).TakesLink stop next) ∧
          ∀ stop next, (searchFrom t start selection).Reaches ⟨[], start⟩ stop →
            (searchFrom t start selection).TakesLink stop next →
              (searchFrom t start selection).LeadsBack start stop next →
                ∃ e, documents t' directory root selection = .error e := by
  have hfails : (∃ e, documents t' directory root selection = .error e) ↔
      ∃ start, t.directory? directory root = some start ∧ (searchFrom t start selection).ComesTwice ⟨[], start⟩ := by
    rw [exists_documents_eq_error_iff, (Tree.liesAlike_of_perm horder).directory?_eq]
    simp only [searchFrom_comesTwice_iff horder]
  refine ⟨hfails, fun start hstart => ⟨fun herror => ?_, fun stop next hstop hlink hback => ?_⟩⟩
  · obtain ⟨start', hstart', htwice⟩ := hfails.mp herror
    obtain rfl := Option.some.inj (hstart.symm.trans hstart')
    exact htwice.exists_takesLink
  · exact hfails.mpr ⟨start, hstart, Search.comesTwice_of_leadsBack hstop hlink hback⟩

/-- A directory with a link to what is around it, and another directory. -/
def upTree : Tree :=
  ((Tree.empty.put? ["a".toList, "up".toList] (.link "..".toList)).bind fun t =>
    t.put? ["b".toList] .directory).getD .empty

/-- The link leads back to the root, and the search fails with the entries listed in either order. -/
theorem documents_fails_iff_linkUp :
    upTree.reversed.entries.Perm upTree.entries ∧ upTree.directory? [] [] = some [] ∧
      (searchFrom upTree [] .markdown).Reaches ⟨[], []⟩ ⟨["a".toList], ["a".toList]⟩ ∧
      (searchFrom upTree [] .markdown).TakesLink ⟨["a".toList], ["a".toList]⟩ ⟨["a".toList, "up".toList], []⟩ ∧
      (searchFrom upTree [] .markdown).LeadsBack [] ⟨["a".toList], ["a".toList]⟩ ⟨["a".toList, "up".toList], []⟩ ∧
      ∃ e, documents upTree.reversed [] [] .markdown = .error e := by
  have horder : upTree.reversed.entries.Perm upTree.entries := List.reverse_perm _
  have hroot : upTree.directory? [] [] = some [] := by decide +kernel
  have hreaches : (searchFrom upTree [] .markdown).Reaches ⟨[], []⟩ ⟨["a".toList], ["a".toList]⟩ :=
    Relation.ReflTransGen.single (by decide +kernel)
  have hlink : (searchFrom upTree [] .markdown).TakesLink ⟨["a".toList], ["a".toList]⟩
      ⟨["a".toList, "up".toList], []⟩ := by
    refine ⟨"up".toList, "..".toList, ?_, by decide +kernel⟩
    rfl
  have hback : (searchFrom upTree [] .markdown).LeadsBack [] ⟨["a".toList], ["a".toList]⟩
      ⟨["a".toList, "up".toList], []⟩ := Or.inl ⟨⟨[], []⟩, .refl, hreaches, rfl⟩
  refine ⟨horder, hroot, hreaches, hlink, hback, ?_⟩
  exact ((documents_fails_iff horder [] [] .markdown).2 [] hroot).2 _ _ hreaches hlink hback

/-- A directory, and beside it a link to it. -/
def siblingTree : Tree :=
  ((Tree.empty.put? ["a".toList] .directory).bind fun t => t.put? ["b".toList] (.link "a".toList)).getD .empty

/-- The stops that the search comes to there. -/
def siblingStops : List Stop := [⟨[], []⟩, ⟨["a".toList], ["a".toList]⟩, ⟨["b".toList], ["a".toList]⟩]

/-- The search fails where no link leads back: the directory is come to by its own name and by that of the link. -/
theorem documents_linkToSibling :
    (∀ stop next, (searchFrom siblingTree [] .markdown).Reaches ⟨[], []⟩ stop →
        (searchFrom siblingTree [] .markdown).TakesLink stop next →
          ¬ (searchFrom siblingTree [] .markdown).LeadsBack [] stop next ∧ ¬ next.place <+: stop.place) ∧
      ∃ e, documents siblingTree [] [] .markdown = .error e := by
  have hclosed : ∀ s ∈ siblingStops, ∀ next ∈ (searchFrom siblingTree [] .markdown).next s,
      next ∈ siblingStops ∧ s = ⟨[], []⟩ ∧ next.place = ["a".toList] := by
    decide +kernel
  have hmem : ∀ stop, (searchFrom siblingTree [] .markdown).Reaches ⟨[], []⟩ stop → stop ∈ siblingStops :=
    fun stop => Search.mem_of_reaches (fun s hs next hnext => (hclosed s hs next hnext).1) (by decide)
  have hpath : ∀ s ∈ siblingStops, s.path = [] → s.place = [] := by decide
  constructor
  · intro stop next hstop hlink
    obtain ⟨-, rfl, hplace⟩ := hclosed stop (hmem stop hstop) next hlink.mem_next
    rw [hplace]
    refine ⟨?_, by simp⟩
    rintro (⟨above, habove, hbelow, hthere⟩ | ⟨-, -, haround⟩)
    · -- only the root is on the way to the link
      have hroot := hpath above (hmem above habove) (List.prefix_nil.mp (Search.prefix_of_reaches hbelow))
      simp [hplace, hroot] at hthere
    · simp [hplace] at haround
  · have hroot : siblingTree.directory? [] [] = some [] := by decide +kernel
    refine exists_documents_eq_error_iff.mpr ⟨[], hroot, ⟨["a".toList], ["a".toList]⟩, ⟨["b".toList], ["a".toList]⟩, ?_⟩
    exact ⟨.single (by decide +kernel), .single (by decide +kernel), by decide, rfl⟩

end Excerpt.Discovery
