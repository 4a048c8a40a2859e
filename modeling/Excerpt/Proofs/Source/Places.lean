import Excerpt.Proofs.Source.Relocation

/-!
# Excerpt — the places of excerpts

What is found under a name is one of three: all of a declaration, the body of one, or what stands between two
markers. In each case it is a range of the text.

* **`SourceFile.IsPlace`**, **`SourceFile.isPlace_of_locate`** — the place that is found is one of those.
* **`SourceFile.IsPlace.isIn`** — it is a range of the text.
-/

namespace Excerpt

theorem Event.marker_of_ofToken? {t : Token} {kind : MarkerKind} {label : Text} {marker : Span}
    (h : ofToken? t = some (.opener kind label marker)) : marker = ⟨t.start, t.stop⟩ := by
  unfold ofToken? ofDirective? ofComment? at h
  dsimp only at h
  repeat' split at h
  all_goals
    simp only [Option.some.injEq, opener.injEq, reduceCtorEq] at h
  all_goals exact h.2.2.symm

namespace SourceFile

variable {s : Text} {file : SourceFile}

/-- All of a declaration, its body, or what stands between two tokens. -/
inductive IsPlace (file : SourceFile) : Located → Prop where
  | full {d : Declaration} (hd : d ∈ file.declarations) : IsPlace file ⟨d.full, d.anchor⟩
  | body {d : Declaration} {span : Span} (hd : d ∈ file.declarations) (hspan : d.body = some span) :
      IsPlace file ⟨span, file.firstCodeOffset span⟩
  | closed {t u : Token} (ht : t ∈ file.layout.tokens) (hu : u ∈ file.layout.tokens)
      (hlt : t.start < u.start) : IsPlace file ⟨⟨t.stop, u.start⟩, t.start⟩

theorem IsFirst.mem {name : Text} {bodyOnly : Bool} {before behind : List Event} {e : Event}
    (h : file.IsFirst name bodyOnly before e behind) : e ∈ file.events := by
  rw [h.events]
  exact List.mem_append_right _ List.mem_cons_self

/-- **What is found has a place.** -/
theorem isPlace_of_locate (hfile : parse? s = some file) {name : Text} {bodyOnly : Bool} {place : Located}
    (hplace : file.locate name bodyOnly = .ok place) : file.IsPlace place := by
  have hanswers := answers_locate file name bodyOnly
  rw [hplace] at hanswers
  cases hanswers with
  | full hfirst _ => exact .full (mem_declarations_of_mem_events hfirst.mem)
  | body hfirst _ hspan => exact .body (mem_declarations_of_mem_events hfirst.mem) hspan
  | @closed before inner behind kind label marker stop hfirst _ =>
    have hcloser : Event.closer kind stop ∈ inner ++ .closer kind stop :: behind :=
      List.mem_append_right _ List.mem_cons_self
    have hlt : marker.start < stop := by
      have hsorted := pairwise_events hfile
      rw [hfirst.events] at hsorted
      exact (List.pairwise_cons.mp (List.pairwise_append.mp hsorted).2.1).1 _ hcloser
    -- both markers are tokens
    obtain ⟨t, ht, rfl⟩ : ∃ t ∈ file.layout.tokens, marker = ⟨t.start, t.stop⟩ := by
      rcases (mem_events_iff file _).mp hfirst.mem with ⟨t, ht, hevent⟩ | ⟨d, -, hcase⟩
      · exact ⟨t, ht, Event.marker_of_ofToken? hevent⟩
      · cases hcase
    have hmem : Event.closer kind stop ∈ file.events := by
      rw [hfirst.events]
      exact List.mem_append_right _ (List.mem_cons_of_mem _ hcloser)
    obtain ⟨u, hu, rfl⟩ : ∃ u ∈ file.layout.tokens, stop = u.start := by
      rcases (mem_events_iff file _).mp hmem with ⟨u, hu, hevent⟩ | ⟨d, -, hcase⟩
      · exact ⟨u, hu, (Event.of_ofToken? hevent).2⟩
      · cases hcase
    exact .closed ht hu hlt

/-- A token that starts before another one ends before it. -/
theorem stop_le_start_of_lt {t u : Token} (ht : t ∈ tokenize s) (hu : u ∈ tokenize s)
    (hlt : t.start < u.start) : t.stop ≤ u.start := by
  have hpairwise := List.pairwise_iff_getElem.mp (pairwise_tokenize s)
  obtain ⟨i, hi, rfl⟩ := List.mem_iff_getElem.mp ht
  obtain ⟨j, hj, rfl⟩ := List.mem_iff_getElem.mp hu
  rcases Nat.lt_trichotomy i j with hij | rfl | hji
  · exact hpairwise i j hi hj hij
  · exact absurd hlt (Nat.lt_irrefl _)
  · have hle := hpairwise j i hj hi hji
    have hstart := Token.start_le_stop (tokenize s)[j]
    omega

/-- **An excerpt is a range of the text.** -/
theorem IsPlace.isIn (hfile : parse? s = some file) {place : Located} (h : file.IsPlace place) :
    place.span.IsIn s := by
  have hlayout := layout_of_parse? hfile
  have hsound := sound_of_parse? hfile
  cases h with
  | full hd =>
    have hfull := hsound.full _ hd
    rwa [hlayout] at hfull
  | body hd hspan =>
    have hbody := hsound.body _ hd _ hspan
    rwa [hlayout] at hbody
  | closed ht hu hlt =>
    rw [hlayout] at ht hu
    have ht := List.mem_toArray.mp ht
    have hu := List.mem_toArray.mp hu
    exact ⟨stop_le_start_of_lt ht hu hlt, (mem_tokenize ht).2.1, (mem_tokenize hu).1⟩

end SourceFile

end Excerpt
