import Excerpt.Document
import Excerpt.Proofs.Text.Lines
import Mathlib.Algebra.Group.Nat.Even

/-!
# Excerpt — how a document divides into kept lines and regions

Which lines of a document are managed is decided by the lines alone. A line that opens a region does so
only outside of code blocks, which is to say behind an even number of fences; the region goes on to the
first line that closes one, whatever stands between, and the fences within it do not count.

* **`IsDivision`** — a list of pieces, each a kept line or a region, is how the lines divide. It says of
  each piece what stands before it, not how the lines are scanned.
* **`isDivision_cons`** — the first piece and the pieces behind it, the form in which proofs use it.
* **`IsDivision.unique`** — lines divide in at most one way.
-/

namespace Excerpt

/-- A part of a document: a line that stays as it is, or a region with the line that opens it, the lines
that it holds and the line that closes it. -/
inductive Piece where
  | kept (line : Line)
  | region (opening : Line) (old : List Line) (closing : Line)

namespace Piece

def lines : Piece → List Line
  | kept line => [line]
  | region opening old closing => opening :: (old ++ [closing])

/-- The piece as it stands in the document. -/
def written (p : Piece) : Text := p.lines.flatMap Line.written

/-- Whether the piece opens or closes a fenced code block. What a region holds does not count. -/
def isFence : Piece → Bool
  | kept line => line.isFence
  | region _ _ _ => false

/-- Whether the piece is a region. -/
def isRegion : Piece → Bool
  | kept _ => false
  | region _ _ _ => true

/-- Whether the piece is in its place behind `seen` fences. A line that opens a region is kept only
inside of a code block; a region is opened outside of one, and closed by the first line that can. -/
def Stands (seen : Nat) : Piece → Prop
  | kept line => line.opensRegion → ¬ Even seen
  | region opening old closing =>
    opening.opensRegion ∧ Even seen ∧ closing.closesRegion ∧ ∀ l ∈ old, ¬ l.closesRegion

instance (seen : Nat) : (p : Piece) → Decidable (p.Stands seen)
  | kept line => inferInstanceAs (Decidable (line.opensRegion = true → ¬ Even seen))
  | region opening old closing =>
    inferInstanceAs (Decidable (opening.opensRegion = true ∧ Even seen ∧ closing.closesRegion = true ∧
      ∀ l ∈ old, ¬ l.closesRegion = true))

end Piece

/-- The number of fences among the pieces. -/
def fences (pieces : List Piece) : Nat := pieces.countP Piece.isFence

/-- The pieces are how the lines divide, where `seen` fences stand before them. -/
structure IsDivision (seen : Nat) (lines : List Line) (pieces : List Piece) : Prop where
  covers : pieces.flatMap Piece.lines = lines
  stands : ∀ before p behind, pieces = before ++ p :: behind → p.Stands (seen + fences before)

/-- The pieces as they stand make up the text that they divide. -/
theorem IsDivision.flatMap_written {text : Text} {pieces : List Piece}
    (h : IsDivision 0 (Text.lines text) pieces) : pieces.flatMap Piece.written = text := by
  have hlines := congrArg (List.flatMap Line.written) h.covers
  rwa [List.flatMap_assoc, Text.flatMap_written_lines] at hlines

/-! ## Lines of several sorts -/

theorem fence_ne_beginMarker (s : Text) (h : fence.isPrefixOf s = true) :
    Directive.isBeginMarker s = false := by
  obtain ⟨rest, rfl⟩ := List.isPrefixOf_iff_prefix.mp h
  rfl

theorem Line.isFence_of_opensRegion {line : Line} (h : line.opensRegion) : line.isFence = false := by
  by_contra hfence
  have hfalse := fence_ne_beginMarker line.trimmed (by simpa [Line.isFence] using hfence)
  rw [Line.opensRegion, hfalse] at h
  exact Bool.false_ne_true h

/-! ## The first piece -/

theorem fences_cons (p : Piece) (ps : List Piece) :
    fences (p :: ps) = (if p.isFence then 1 else 0) + fences ps := by
  unfold fences
  rw [List.countP_cons, Nat.add_comm]

theorem fences_append (ps qs : List Piece) : fences (ps ++ qs) = fences ps + fences qs := List.countP_append

/-- Each piece meets a condition on the number of fences before it, `seen` of which stand before all pieces,
and on the lines behind it. -/
def AllPlaced (P : Nat → List Line → Piece → Prop) (seen : Nat) (pieces : List Piece) : Prop :=
  ∀ before p behind, pieces = before ++ p :: behind →
    P (seen + fences before) (behind.flatMap Piece.lines) p

theorem allPlaced_nil {P : Nat → List Line → Piece → Prop} {seen : Nat} : AllPlaced P seen [] :=
  fun before p behind h => by simp at h

theorem allPlaced_cons {P : Nat → List Line → Piece → Prop} {seen : Nat} {p : Piece} {ps : List Piece} :
    AllPlaced P seen (p :: ps) ↔
      P seen (ps.flatMap Piece.lines) p ∧ AllPlaced P (seen + if p.isFence then 1 else 0) ps := by
  constructor
  · intro h
    refine ⟨by simpa [fences] using h [] p ps rfl, ?_⟩
    intro before q behind hps
    have hplaced := h (p :: before) q behind (by rw [hps]; rfl)
    rwa [fences_cons, ← Nat.add_assoc] at hplaced
  · rintro ⟨hp, hrest⟩ before q behind hps
    cases before with
    | nil =>
      obtain ⟨rfl, rfl⟩ := List.cons.inj hps
      simpa [fences] using hp
    | cons first before =>
      obtain ⟨rfl, htail⟩ := List.cons.inj hps
      have hplaced := hrest before q behind htail
      rwa [Nat.add_assoc, ← fences_cons] at hplaced

instance decidableAllPlaced {P : Nat → List Line → Piece → Prop} [∀ seen behind p, Decidable (P seen behind p)] :
    (seen : Nat) → (pieces : List Piece) → Decidable (AllPlaced P seen pieces)
  | _, [] => isTrue allPlaced_nil
  | seen, p :: ps =>
    have : Decidable (AllPlaced P (seen + if p.isFence then 1 else 0) ps) := decidableAllPlaced (seen + if p.isFence then 1 else 0) ps
    decidable_of_iff _ allPlaced_cons.symm

theorem isDivision_iff {seen : Nat} {lines : List Line} {pieces : List Piece} :
    IsDivision seen lines pieces ↔
      pieces.flatMap Piece.lines = lines ∧ AllPlaced (fun seen _ p => p.Stands seen) seen pieces :=
  ⟨fun h => ⟨h.covers, h.stands⟩, fun h => ⟨h.1, h.2⟩⟩

instance {seen : Nat} {lines : List Line} {pieces : List Piece} : Decidable (IsDivision seen lines pieces) :=
  decidable_of_iff _ isDivision_iff.symm

theorem isDivision_nil {seen : Nat} {lines : List Line} : IsDivision seen lines [] ↔ lines = [] := by
  constructor
  · intro h
    exact h.covers.symm
  · rintro rfl
    exact ⟨rfl, fun before p behind h => by simp at h⟩

/-- **The first piece of a division stands where it may, and the other pieces divide the rest.** -/
theorem isDivision_cons {seen : Nat} {lines : List Line} {p : Piece} {ps : List Piece} :
    IsDivision seen lines (p :: ps) ↔
      ∃ rest, lines = p.lines ++ rest ∧ p.Stands seen ∧
        IsDivision (seen + if p.isFence then 1 else 0) rest ps := by
  have hplaced : AllPlaced (fun seen _ p => p.Stands seen) seen (p :: ps) ↔
      p.Stands seen ∧ AllPlaced (fun seen _ p => p.Stands seen) (seen + if p.isFence then 1 else 0) ps :=
    allPlaced_cons
  constructor
  · intro h
    obtain ⟨hp, hrest⟩ := hplaced.mp h.stands
    exact ⟨ps.flatMap Piece.lines, by rw [← h.covers, List.flatMap_cons], hp, rfl, hrest⟩
  · rintro ⟨rest, hlines, hp, hrest⟩
    exact ⟨by rw [List.flatMap_cons, hrest.covers, hlines], hplaced.mpr ⟨hp, hrest.stands⟩⟩

/-! ## There is one division at most -/

/-- Where two lists without a closing line go on with one, up to there they are the same. -/
theorem eq_of_append_closing {old old' rest rest' : List Line} {closing closing' : Line}
    (h : old ++ closing :: rest = old' ++ closing' :: rest')
    (hold : ∀ l ∈ old, ¬ l.closesRegion) (hold' : ∀ l ∈ old', ¬ l.closesRegion)
    (hclosing : closing.closesRegion) (hclosing' : closing'.closesRegion) :
    old = old' ∧ closing = closing' ∧ rest = rest' := by
  induction old generalizing old' with
  | nil =>
    cases old' with
    | nil => simpa using h
    | cons l old' =>
      obtain ⟨rfl, -⟩ := List.cons.inj h
      exact absurd hclosing (hold' closing List.mem_cons_self)
  | cons l old ih =>
    cases old' with
    | nil =>
      obtain ⟨rfl, -⟩ := List.cons.inj h
      exact absurd hclosing' (hold l List.mem_cons_self)
    | cons l' old' =>
      obtain ⟨rfl, htail⟩ := List.cons.inj h
      obtain ⟨rfl, hc, hr⟩ := ih htail (fun m hm => hold m (List.mem_cons_of_mem _ hm))
        (fun m hm => hold' m (List.mem_cons_of_mem _ hm))
      exact ⟨rfl, hc, hr⟩

/-- Two first pieces that stand behind the same fences and begin the same lines are one. -/
theorem Piece.Stands.unique {seen : Nat} {p q : Piece} {rest rest' : List Line} (hp : p.Stands seen)
    (hq : q.Stands seen) (h : p.lines ++ rest = q.lines ++ rest') : p = q ∧ rest = rest' := by
  cases p with
  | kept line =>
    cases q with
    | kept line' =>
      obtain ⟨rfl, rfl⟩ := List.cons.inj h
      exact ⟨rfl, rfl⟩
    | region opening old closing =>
      obtain ⟨rfl, -⟩ := List.cons.inj h
      exact absurd hq.2.1 (hp hq.1)
  | region opening old closing =>
    cases q with
    | kept line =>
      obtain ⟨rfl, -⟩ := List.cons.inj h
      exact absurd hp.2.1 (hq hp.1)
    | region opening' old' closing' =>
      obtain ⟨rfl, htail⟩ : opening = opening' ∧
          old ++ closing :: rest = old' ++ closing' :: rest' := by
        simpa [lines] using h
      obtain ⟨rfl, rfl, rfl⟩ := eq_of_append_closing htail hp.2.2.2 hq.2.2.2 hp.2.2.1 hq.2.2.1
      exact ⟨rfl, rfl⟩

theorem Piece.lines_ne_nil (p : Piece) : p.lines ≠ [] := by
  cases p <;> simp [lines]

/-- **Lines divide in at most one way.** Induction on the pieces; each first piece is settled by the
fences before it. -/
theorem IsDivision.unique {seen : Nat} {lines : List Line} {ps qs : List Piece}
    (hp : IsDivision seen lines ps) (hq : IsDivision seen lines qs) : ps = qs := by
  induction ps generalizing seen lines qs with
  | nil =>
    obtain rfl := isDivision_nil.mp hp
    cases qs with
    | nil => rfl
    | cons q qs =>
      obtain ⟨rest, hnil, -⟩ := isDivision_cons.mp hq
      exact absurd (List.append_eq_nil_iff.mp hnil.symm).1 q.lines_ne_nil
  | cons p ps ih =>
    obtain ⟨rest, rfl, hstands, hrest⟩ := isDivision_cons.mp hp
    cases qs with
    | nil =>
      have hnil := isDivision_nil.mp hq
      exact absurd (List.append_eq_nil_iff.mp hnil).1 p.lines_ne_nil
    | cons q qs =>
      obtain ⟨rest', hlines, hstands', hrest'⟩ := isDivision_cons.mp hq
      obtain ⟨rfl, rfl⟩ := hstands.unique hstands' hlines
      rw [ih hrest hrest']

end Excerpt
