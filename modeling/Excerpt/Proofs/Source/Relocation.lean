import Excerpt.Proofs.Source.Locate
import Excerpt.Proofs.Source.Redaction

/-!
# Excerpt — source files with the same excerpts

What is found under a name depends on little of a source file: the markers with their labels, the names of the
declarations and of what contains them, and the order of both. Another file that has the same at other offsets
has the same excerpt in the corresponding place.

* **`SourceFile.Relocation`** — the markers and declarations of one file are those of another one, moved.
* **`Relocation.events_eq`**, **`Relocation.locate_eq`** — then so are its events, and what is found among them.
* **`SourceFile.locate_redact`** — in particular, what no name tells does not matter.
-/

namespace Excerpt

/-- The range with its ends moved. -/
def Span.moved (φ : Nat → Nat) (span : Span) : Span := ⟨φ span.start, φ span.stop⟩

/-- The declaration with the ends of its ranges moved. -/
def Declaration.moved (φ : Nat → Nat) (d : Declaration) : Declaration :=
  { d with full := d.full.moved φ, anchor := φ d.anchor, body := d.body.map (Span.moved φ) }

def Located.moved (φ : Nat → Nat) (place : Located) : Located :=
  ⟨place.span.moved φ, φ place.anchor⟩

/-- The event with its offsets moved, where `δ` moves declarations. -/
def Event.moved (φ : Nat → Nat) (δ : Declaration → Declaration) : Event → Event
  | opener kind label marker => opener kind label (marker.moved φ)
  | closer kind start => closer kind (φ start)
  | declaration d => declaration (δ d)

/-- The declarations are addressed by the same names, as far as they tell. -/
structure Declaration.SameNames (d e : Declaration) : Prop where
  kind : d.kind = .namespace ↔ e.kind = .namespace
  name : e.kind ≠ .namespace → d.name = e.name
  parent : d.parent = e.parent
  body : d.body.isSome = e.body.isSome

theorem Event.ofToken?_ne_declaration (t : Token) (d : Declaration) :
    Event.ofToken? t ≠ some (.declaration d) := by
  unfold ofToken? ofDirective? ofComment?
  dsimp only
  repeat' split
  all_goals simp

namespace SourceFile

theorem mem_declarations_of_mem_events {f : SourceFile} {d : Declaration}
    (h : Event.declaration d ∈ f.events) : d ∈ f.declarations := by
  rcases (mem_events_iff f _).mp h with ⟨t, -, ht⟩ | ⟨d', hd', heq⟩
  · exact absurd ht (Event.ofToken?_ne_declaration t d)
  · cases heq
    exact hd'

/-- **The markers and declarations of `g` are those of `f`**, at the offsets to which `φ` and `δ` move them,
and in the same order. -/
structure Relocation (f g : SourceFile) (φ : Nat → Nat) (δ : Declaration → Declaration) : Prop where
  markers : g.layout.tokens.toList.filterMap Event.ofToken? =
    (f.layout.tokens.toList.filterMap Event.ofToken?).map (Event.moved φ δ)
  declarations : g.declarations = f.declarations.map δ
  names : ∀ d, (δ d).SameNames d
  order : ∀ e ∈ f.events, ∀ e' ∈ f.events, φ e.offset ≤ φ e'.offset ↔ e.offset ≤ e'.offset
  place : ∀ bodyOnly, ∀ d ∈ f.declarations,
    g.placeOf bodyOnly (δ d) = (f.placeOf bodyOnly d).moved φ

namespace Relocation

variable {f g : SourceFile} {φ : Nat → Nat} {δ : Declaration → Declaration}

theorem offset_moved (h : Relocation f g φ δ) {e : Event} (he : e ∈ f.events) :
    (e.moved φ δ).offset = φ e.offset := by
  cases e with
  | opener kind label marker => rfl
  | closer kind start => rfl
  | declaration d =>
    exact congrArg Located.anchor (h.place false d (mem_declarations_of_mem_events he))

/-- **The events are the same, moved.** Sorting commutes with moving, as this keeps the order. -/
theorem events_eq (h : Relocation f g φ δ) : g.events = f.events.map (Event.moved φ δ) := by
  have hdeclarations : g.declarations.toList.map Event.declaration =
      (f.declarations.toList.map Event.declaration).map (Event.moved φ δ) := by
    rw [h.declarations, Array.toList_map, List.map_map, List.map_map]
    rfl
  unfold events
  dsimp only
  rw [h.markers, hdeclarations, ← List.map_append, List.map_mergeSort]
  intro a ha b hb
  have haEvents : a ∈ f.events := List.mem_mergeSort.mpr ha
  have hbEvents : b ∈ f.events := List.mem_mergeSort.mpr hb
  rw [h.offset_moved haEvents, h.offset_moved hbEvents]
  exact decide_eq_decide.mpr (h.order a haEvents b hbEvents).symm

/-- The names that address a declaration. Induction along them, from the inside out. -/
theorem namesMatch_eq (h : Relocation f g φ δ) (names : List Text) (d : Option Declaration) :
    g.namesMatch (d.map δ) names = f.namesMatch d names := by
  induction names generalizing d with
  | nil => rw [namesMatch, namesMatch]
  | cons name outer ih =>
    cases d with
    | none => rfl
    | some d =>
      have hnames := h.names d
      have hparent : (δ d).parent.bind (fun i => g.declarations[i]?) =
          (d.parent.bind fun i => f.declarations[i]?).map δ := by
        rw [hnames.parent, h.declarations]
        cases d.parent with
        | none => rfl
        | some i => exact Array.getElem?_map
      rw [Option.map_some, namesMatch, namesMatch, hparent, ih]
      by_cases hkind : d.kind = .namespace
      · simp [hkind, hnames.kind.mpr hkind]
      · simp [hkind, mt hnames.kind.mp hkind, hnames.name hkind]

theorem isNamed_eq (h : Relocation f g φ δ) (name : Text) (bodyOnly : Bool) (e : Event) :
    g.isNamed name bodyOnly (e.moved φ δ) = f.isNamed name bodyOnly e := by
  cases e with
  | opener kind label marker => rfl
  | closer kind start => rfl
  | declaration d =>
    have hmatches := h.namesMatch_eq (name.splitOn '.').reverse (some d)
    rw [Option.map_some] at hmatches
    simp only [Event.moved, isNamed, matchesPath, hmatches, (h.names d).body]

end Relocation

/-- The closer that is found is the same, moved. -/
theorem closing?_map_moved (φ : Nat → Nat) (δ : Declaration → Declaration) (kind : MarkerKind)
    (nested : Nat) (events : List Event) :
    closing? kind nested (events.map (Event.moved φ δ)) = (closing? kind nested events).map φ := by
  induction events generalizing nested with
  | nil => rfl
  | cons e events ih =>
    cases e with
    | opener k label marker => simp only [List.map_cons, Event.moved, closing?, ih]
    | closer k start =>
      by_cases hk : k = kind
      · cases nested <;> simp [Event.moved, closing?, hk, ih]
      · simp [Event.moved, closing?, hk, ih]
    | declaration d => simp only [List.map_cons, Event.moved, closing?, ih]

/-- **What is found is the same, moved.** -/
theorem Relocation.locate_eq {f g : SourceFile} {φ : Nat → Nat} {δ : Declaration → Declaration}
    (h : Relocation f g φ δ) (name : Text) (bodyOnly : Bool) :
    g.locate name bodyOnly = (f.locate name bodyOnly).map (Located.moved φ) := by
  have hnamed : (! g.isNamed name bodyOnly ·) ∘ Event.moved φ δ = (! f.isNamed name bodyOnly ·) := by
    funext e
    exact congrArg Bool.not (h.isNamed_eq name bodyOnly e)
  have hdrop : g.events.dropWhile (! g.isNamed name bodyOnly ·) =
      (f.events.dropWhile (! f.isNamed name bodyOnly ·)).map (Event.moved φ δ) := by
    rw [h.events_eq, List.dropWhile_map, hnamed]
  unfold locate
  rw [hdrop]
  cases hfirst : f.events.dropWhile (! f.isNamed name bodyOnly ·) with
  | nil => rfl
  | cons e rest =>
    cases e with
    | opener kind label marker =>
      rw [List.map_cons, Event.moved]
      dsimp only
      rw [closing?_map_moved]
      cases closing? kind 0 rest <;> rfl
    | closer kind start => rfl
    | declaration d =>
      have hd : Event.declaration d ∈ f.events := by
        have hmem : Event.declaration d ∈ f.events.dropWhile (! f.isNamed name bodyOnly ·) := by
          rw [hfirst]
          exact List.mem_cons_self
        exact (List.dropWhile_suffix _).subset hmem
      rw [List.map_cons, Event.moved]
      dsimp only
      rw [h.place bodyOnly d (mem_declarations_of_mem_events hd)]
      rfl

/-! ## Redaction -/

end SourceFile

def Declaration.redact (d : Declaration) : Declaration :=
  { d with kind := d.kind.redact, name := d.kind.redactName d.name }

theorem Declaration.sameNames_redact (d : Declaration) : d.redact.SameNames d where
  kind := d.kind.redact_eq_iff.1
  name hkind := if_neg hkind
  parent := rfl
  body := rfl

namespace SourceFile

/-- The source file with the declarations as far as a name tells. -/
def redact (file : SourceFile) : SourceFile :=
  ⟨file.layout, file.declarations.map Declaration.redact⟩

theorem relocation_redact (file : SourceFile) :
    Relocation file file.redact id Declaration.redact where
  markers := by
    have hid : ∀ e ∈ file.layout.tokens.toList.filterMap Event.ofToken?,
        e.moved id Declaration.redact = id e := by
      intro e he
      obtain ⟨t, -, ht⟩ := List.mem_filterMap.mp he
      cases e with
      | opener kind label marker => rfl
      | closer kind start => rfl
      | declaration d => exact absurd ht (Event.ofToken?_ne_declaration t d)
    rw [List.map_congr_left hid, List.map_id]
    rfl
  declarations := rfl
  names := Declaration.sameNames_redact
  order e _ e' _ := Iff.rfl
  place bodyOnly d _ := by
    obtain ⟨kind, name, parent, full, anchor, body⟩ := d
    cases bodyOnly <;> cases body <;> rfl

/-- **What no name tells does not matter for what is found.** -/
theorem locate_redact (file : SourceFile) (name : Text) (bodyOnly : Bool) :
    file.redact.locate name bodyOnly = file.locate name bodyOnly := by
  rw [(relocation_redact file).locate_eq]
  cases file.locate name bodyOnly <;> rfl

end SourceFile

end Excerpt
