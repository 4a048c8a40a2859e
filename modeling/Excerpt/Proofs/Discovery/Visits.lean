import Excerpt.Proofs.Discovery.Documents
import Mathlib.Data.List.Nodup
import Mathlib.Logic.Relation

/-!
# Excerpt — the directories that the search comes to

The search comes to every directory that it is led to, along every way there is, and it may come to a place only once.
So either it visits each of the stops that are reached, all at different places, and finds what they hold; or two of
them, by different paths, are at one place.

* **`Discovery.Search.Reaches`** — the search leads from one stop to another one.
* **`Discovery.Search.exists_visits_of_run`** — a search that ends well has visited each stop that is reached, once.
* **`Discovery.Search.found_of_run`** — what it has found is what lies in them, each document once.
* **`Discovery.Search.Apart`** — the ways that the search has still to go are apart from each other.
* **`Discovery.Search.exists_twice_of_run`** — a search that fails was led to one place by two paths.
-/

namespace Excerpt.Discovery.Search

variable {search : Search}

/-- The search leads from one stop to another one, over any number of directories. -/
def Reaches (search : Search) : Stop → Stop → Prop := Relation.ReflTransGen fun stop next => next ∈ search.next stop

/-- What is reached from the first of some stops is that stop, or reached from where the search goes on there. -/
theorem exists_reaches_cons_iff {first stop : Stop} {rest : List Stop} :
    (∃ s ∈ first :: rest, search.Reaches s stop) ↔
      stop = first ∨ ∃ s ∈ search.next first ++ rest, search.Reaches s stop := by
  have hhead : search.Reaches first stop ↔ stop = first ∨ ∃ s ∈ search.next first, search.Reaches s stop := by
    unfold Reaches
    rw [Relation.ReflTransGen.cases_head_iff, eq_comm]
  rw [List.exists_mem_cons_iff, hhead, or_assoc]
  refine or_congr_right ?_
  simp only [List.mem_append, or_and_right, exists_or]

/-! ## A search that ends well -/

/-- The stops that the search has visited, from those that were pending: each that is reached, all at different places
that were not seen before. -/
structure Visits (search : Search) (unseen : List Path) (pending visited : List Stop) : Prop where
  mem_iff : ∀ stop, stop ∈ visited ↔ ∃ first ∈ pending, search.Reaches first stop
  unseen : ∀ stop ∈ visited, stop.place ∈ unseen
  once : (visited.map Stop.place).Nodup

/-- **A search that ends well has visited each stop that is reached, once,** and has found what is in them. Induction on
the search. -/
theorem exists_visits_of_run {unseen : List Path} {pending : List Stop} {found result : List Path}
    (hnodup : unseen.Nodup) (h : search.run unseen pending found = .ok result) :
    ∃ visited, search.Visits unseen pending visited ∧ result = visited.reverse.flatMap search.documents ++ found := by
  fun_induction run search unseen pending found with
  | case1 unseen found =>
    obtain rfl := Except.ok.inj h
    exact ⟨[], ⟨by simp, by simp, List.nodup_nil⟩, rfl⟩
  | case2 unseen found stop rest hseen ih =>
    obtain ⟨visited, hvisits, rfl⟩ := ih (hnodup.erase _) h
    refine ⟨stop :: visited, ⟨fun s => ?_, ?_, ?_⟩, by simp⟩
    · rw [List.mem_cons, hvisits.mem_iff, exists_reaches_cons_iff]
    · rintro s (_ | ⟨_, hs⟩)
      · exact hseen
      · exact List.mem_of_mem_erase (hvisits.unseen s hs)
    · refine List.nodup_cons.mpr ⟨fun hmem => ?_, hvisits.once⟩
      -- the place of the stop is seen from here on
      obtain ⟨s, hs, hplace⟩ := List.mem_map.mp hmem
      exact hnodup.not_mem_erase (hplace ▸ hvisits.unseen s hs)
  | case3 => cases h

/-- The search came to what it reaches by names. -/
theorem leadsToStop_of_reaches {root : Path} {stop : Stop} (h : search.Reaches ⟨[], root⟩ stop) :
    LeadsToStop search.tree root stop := by
  induction h with
  | refl => exact ⟨by simp, .here root⟩
  | tail _ hnext ih => exact ih.next hnext

/-- A directory has no document twice. -/
theorem nodup_documents (search : Search) (stop : Stop) : (search.documents stop).Nodup := by
  unfold Search.documents
  refine List.pairwise_filterMap.mpr ((Tree.pairwise_children search.tree stop.place).imp ?_)
  rintro ⟨name, entry⟩ ⟨other, entry'⟩ hne path hpath path' hpath' rfl
  obtain ⟨place, content, -, -, -, -, rfl⟩ := document?_eq_some_iff.mp hpath
  obtain ⟨place', content', -, -, -, -, heq⟩ := document?_eq_some_iff.mp hpath'
  exact hne (List.cons.inj (List.append_cancel_left heq)).1

/-- **What is found is what lies in the stops that are reached,** each document once: a path leads to one place, and a
place is visited once. -/
theorem found_of_run {root : Path} {result : List Path}
    (h : search.run search.tree.directories [⟨[], root⟩] [] = .ok result) :
    result.Nodup ∧ ∀ path, path ∈ result ↔ ∃ stop, search.Reaches ⟨[], root⟩ stop ∧ path ∈ search.documents stop := by
  obtain ⟨visited, hvisits, rfl⟩ := exists_visits_of_run (Tree.nodup_directories _) h
  have hmem : ∀ stop, stop ∈ visited ↔ search.Reaches ⟨[], root⟩ stop := fun stop => by
    rw [hvisits.mem_iff]
    simp
  rw [List.append_nil]
  refine ⟨List.nodup_flatMap.mpr ⟨fun stop _ => nodup_documents search stop, ?_⟩, fun path => ?_⟩
  · refine List.pairwise_reverse.mpr ((List.Nodup.of_map _ hvisits.once).imp_of_mem ?_)
    intro stop other hstop hother hne path hpath hpath'
    obtain ⟨name, entry, -, hdocument⟩ := mem_documents_iff.mp hpath
    obtain ⟨place, content, -, -, -, -, rfl⟩ := document?_eq_some_iff.mp hdocument
    obtain ⟨name', entry', -, hdocument'⟩ := mem_documents_iff.mp hpath'
    obtain ⟨place', content', -, -, -, -, heq⟩ := document?_eq_some_iff.mp hdocument'
    -- the paths of the two stops are one path, and so are their places
    have hways := (List.append_inj' heq rfl).1
    have hleads := (leadsToStop_of_reaches ((hmem stop).mp hstop)).leads
    have hplace := hleads.unique (hways ▸ (leadsToStop_of_reaches ((hmem other).mp hother)).leads)
    exact hne (List.inj_on_of_nodup_map hvisits.once hstop hother hplace)
  · simp only [List.mem_flatMap, List.mem_reverse, hmem]

/-! ## A search that fails -/

theorem exists_path_of_mem_next {stop next : Stop} (h : next ∈ search.next stop) :
    ∃ name, next.path = stop.path ++ [name] := by
  obtain ⟨name, entry, -, hdescend⟩ := mem_next_iff.mp h
  obtain ⟨place, -, -, -, rfl⟩ := descend?_eq_some_iff.mp hdescend
  exact ⟨name, rfl⟩

/-- Where the search goes on from a directory, it does so by different paths. -/
theorem pairwise_next (search : Search) (stop : Stop) :
    (search.next stop).Pairwise fun a b => a.path ≠ b.path := by
  unfold Search.next
  refine List.pairwise_filterMap.mpr ((Tree.pairwise_children search.tree stop.place).imp ?_)
  rintro ⟨name, entry⟩ ⟨other, entry'⟩ hne a ha b hb heq
  obtain ⟨place, -, -, -, rfl⟩ := descend?_eq_some_iff.mp ha
  obtain ⟨place', -, -, -, rfl⟩ := descend?_eq_some_iff.mp hb
  exact hne (List.cons.inj (List.append_cancel_left heq)).1

/-- The ways that the search has still to go: none leads on from another one, and none has been gone. -/
structure Apart (visited pending : List Stop) : Prop where
  ahead : pending.Pairwise fun a b => ¬ a.path <+: b.path ∧ ¬ b.path <+: a.path
  behind : ∀ a ∈ pending, ∀ b ∈ visited, ¬ a.path <+: b.path

/-- The ways remain apart where the search goes on in the directory at the end of one of them. -/
theorem Apart.next {visited rest : List Stop} {stop : Stop} (h : Apart visited (stop :: rest)) :
    Apart (stop :: visited) (search.next stop ++ rest) := by
  obtain ⟨hfirst, hrest⟩ := List.pairwise_cons.mp h.ahead
  have hlonger : ∀ next ∈ search.next stop, stop.path <+: next.path ∧ stop.path.length < next.path.length := by
    intro next hnext
    obtain ⟨name, hpath⟩ := exists_path_of_mem_next hnext
    exact hpath ▸ ⟨List.prefix_append _ _, by simp⟩
  -- a way that leads on from the stop and one that does not are as far apart as the stop and the other one
  have hother : ∀ next ∈ search.next stop, ∀ a ∈ rest, ¬ next.path <+: a.path ∧ ¬ a.path <+: next.path := by
    intro next hnext a ha
    obtain ⟨hstop, hlength⟩ := hlonger next hnext
    refine ⟨fun hnext => (hfirst a ha).1 (hstop.trans hnext), fun hnext => ?_⟩
    exact (List.prefix_or_prefix_of_prefix hnext hstop).elim (hfirst a ha).2 (hfirst a ha).1
  constructor
  · refine List.pairwise_append.mpr ⟨(pairwise_next search stop).imp_of_mem ?_, hrest, hother⟩
    intro a b ha hb hne
    obtain ⟨name, hname⟩ := exists_path_of_mem_next ha
    obtain ⟨other, hother⟩ := exists_path_of_mem_next hb
    have hlength : a.path.length = b.path.length := by simp [hname, hother]
    exact ⟨fun hfront => hne (hfront.eq_of_length hlength),
      fun hfront => hne (hfront.eq_of_length hlength.symm).symm⟩
  · intro a ha b hb hfront
    rcases List.mem_append.mp ha with hnext | hrest <;> rcases List.mem_cons.mp hb with rfl | hvisited
    · exact absurd hfront.length_le (Nat.not_le.mpr (hlonger a hnext).2)
    · exact h.behind stop List.mem_cons_self b hvisited ((hlonger a hnext).1.trans hfront)
    · exact (hfirst a hrest).2 hfront
    · exact h.behind a (List.mem_cons_of_mem _ hrest) b hvisited hfront

/-- **A search that fails was led to one place by two paths,** where each directory is unseen or has been visited.
Induction on the search. -/
theorem exists_twice_of_run {start : Stop} {unseen : List Path} {visited pending : List Stop} {found : List Path}
    {e : LinkCycle} (hapart : Apart visited pending)
    (hseen : ∀ place, search.tree.isDirectory place = true → place ∈ unseen ∨ ∃ s ∈ visited, s.place = place)
    (hvisited : ∀ s ∈ visited, search.Reaches start s)
    (hpending : ∀ s ∈ pending, search.Reaches start s ∧ search.tree.isDirectory s.place = true)
    (h : search.run unseen pending found = .error e) :
    ∃ first second, search.Reaches start first ∧ search.Reaches start second ∧ first.path ≠ second.path ∧
      first.place = second.place := by
  fun_induction run search unseen pending found generalizing visited with
  | case1 => cases h
  | case2 unseen found stop rest hmem ih =>
    obtain ⟨⟨hstop, hdirectory⟩, hrest⟩ := List.forall_mem_cons.mp hpending
    refine ih hapart.next (fun place hplace => ?_) (List.forall_mem_cons.mpr ⟨hstop, hvisited⟩) ?_ h
    · -- of the places that were unseen, only that of the stop is seen now
      rcases hseen place hplace with hunseen | ⟨s, hs, rfl⟩
      · by_cases heq : place = stop.place
        · exact Or.inr ⟨stop, List.mem_cons_self, heq.symm⟩
        · exact Or.inl ((List.mem_erase_of_ne heq).mpr hunseen)
      · exact Or.inr ⟨s, List.mem_cons_of_mem _ hs, rfl⟩
    · refine List.forall_mem_append.mpr ⟨fun next hnext => ?_, hrest⟩
      refine ⟨hstop.tail hnext, ?_⟩
      obtain ⟨name, entry, hentry, hdescend⟩ := mem_next_iff.mp hnext
      obtain ⟨place, htarget, -, -, rfl⟩ := descend?_eq_some_iff.mp hdescend
      exact Tree.isDirectory_iff.mpr (leads_of_target? hentry htarget).2
  | case3 unseen found stop rest hmem =>
    obtain ⟨hstop, hdirectory⟩ := hpending stop List.mem_cons_self
    obtain ⟨s, hs, hplace⟩ := (hseen stop.place hdirectory).resolve_left hmem
    refine ⟨s, stop, hvisited s hs, hstop, fun heq => ?_, hplace⟩
    exact hapart.behind stop List.mem_cons_self s hs (heq ▸ List.prefix_refl _)

end Excerpt.Discovery.Search
