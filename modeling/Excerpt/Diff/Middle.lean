import Excerpt.Text.Basic

/-!
The middle of a shortest edit script. Two searches, one from the starts of both lists and one from their
ends, go on with one edit more at a time until they meet. Each keeps, for every diagonal it has come to,
how far it reaches into the first list.
-/

namespace Excerpt.Diff

variable {α : Type} [DecidableEq α]

def commonLength : List α → List α → Nat
  | a :: old, b :: new => if a = b then commonLength old new + 1 else 0
  | _, _ => 0

theorem commonLength_le (old new : List α) : commonLength old new ≤ old.length := by
  induction old generalizing new with
  | nil => simp [commonLength]
  | cons a old ih =>
    cases new with
    | nil => simp [commonLength]
    | cons b new =>
      have := ih new
      unfold commonLength
      split
      · simp only [List.length_cons]
        omega
      · exact Nat.zero_le _

def commonEnd (kept items : List α) : Nat := commonLength kept.reverse items.reverse

theorem commonEnd_le (kept items : List α) : commonEnd kept items ≤ kept.length := by
  simpa [commonEnd] using commonLength_le kept.reverse items.reverse

/-- How far a search reaches: `reach[i]` belongs to diagonal `edits - 2 * i`, where `edits` is the number of
its edits. -/
structure Front where
  reach : List Nat
  deriving DecidableEq, Repr

namespace Front

/-- The front of a search that has not begun. -/
def none : Front := ⟨[]⟩

/-- Where the diagonals begin on which one more edit leads: the better of an insertion from the diagonal
above and a deletion from the one below. -/
def starts (front : Front) : List Nat :=
  let rec between (above : Nat) : List Nat → List Nat
    | [] => [above]
    | below :: rest => (if below < above then above else below + 1) :: between below rest
  match front.reach with
  | [] => [0]
  | first :: rest => (first + 1) :: between first rest

/-- The reach on a diagonal, if the front has come to it. -/
def reach? (front : Front) (diagonal : Int) : Option Nat :=
  let edits : Int := front.reach.length - 1
  if diagonal.natAbs ≤ edits then front.reach[((edits - diagonal) / 2).toNat]? else Option.none

end Front

/-- The step of a search on a diagonal: where it begins and how far the items in common lead. -/
structure Step where
  diagonal : Int
  start : Nat
  reach : Nat
  deriving DecidableEq, Repr

/-- The steps that follow a front, those on the greatest diagonals first. -/
def steps (old new : List α) (front : Front) : List Step :=
  let edits := front.reach.length
  front.starts.mapIdx fun i start =>
    let diagonal : Int := edits - 2 * i
    ⟨diagonal, start, start + commonLength (old.drop start) (new.drop ((start : Int) - diagonal).toNat)⟩

/-- The first of the steps by which a search meets the other one, whose front is `other`. -/
def meeting? (old new : List α) (other : Front) (found : List Step) : Option Step :=
  let delta : Int := old.length - new.length
  found.find? fun step =>
    match other.reach? (delta - step.diagonal) with
    | some reach => old.length ≤ step.reach + reach
    | none => false

/-- Looks for the point where the two searches meet with at most `budget` more edits of each. The point
says how much of each list comes before it. -/
def middleFrom (old new : List α) (forth back : Front) : (budget : Nat) → Option (Nat × Nat)
  | 0 => none
  | budget + 1 =>
    let ahead := steps old new forth
    let behind := steps old.reverse new.reverse back
    let forth : Front := ⟨ahead.map Step.reach⟩
    let met :=
      -- an odd number of edits is completed by the search ahead, an even one by the search behind
      if (old.length + new.length) % 2 = 1 then
        (meeting? old new back ahead).map fun step => (step.start, ((step.start : Int) - step.diagonal).toNat)
      else
        (meeting? old new forth behind).map fun step =>
          (old.length - step.reach, new.length - ((step.reach : Int) - step.diagonal).toNat)
    match met with
    | some point => some point
    | none => middleFrom old new forth ⟨behind.map Step.reach⟩ budget

/-- A point on a shortest way from the first list to the second one. -/
def middle? (old new : List α) : Option (Nat × Nat) :=
  middleFrom old new .none .none ((old.length + new.length + 1) / 2 + 1)

end Excerpt.Diff
