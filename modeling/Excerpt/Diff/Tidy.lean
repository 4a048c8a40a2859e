import Excerpt.Diff.Script

/-!
Tidying edit scripts. An insertion can slide over kept items that it ends with, and edits of one kind that
come together become one, which makes a script easier to read.
-/

namespace Excerpt.Diff

variable {α : Type}

/-- An edit in its script: what comes before it, the nearest first, and what comes after it. -/
structure Focus (α : Type) where
  before : List (Edit α)
  edit : Edit α
  after : List (Edit α)

def Focus.backwards (focus : Focus α) : Focus α :=
  ⟨focus.after.map Edit.backwards, focus.edit.backwards, focus.before.map Edit.backwards⟩

def keepBefore (items : List α) : List (Edit α) → List (Edit α)
  | .keep more :: rest => .keep (items ++ more) :: rest
  | rest => .keep items :: rest

def weight (edits : List (Edit α)) : Nat :=
  edits.foldr (fun edit n => edit.items.length + 1 + n) 0

variable [DecidableEq α]

/-- Moves an edit towards the start of its script as far as it goes. -/
def slideUp (focus : Focus α) : Focus α :=
  match focus with
  | ⟨.keep kept :: before, .insert items, after⟩ =>
    let n := commonEnd kept items
    if _none : n = 0 then
      if kept.isEmpty then slideUp ⟨before, .insert items, after⟩ else focus
    else
      let rest := kept.take (kept.length - n)
      let moved : Edit α := .insert (kept.drop (kept.length - n) ++ items.take (items.length - n))
      let after := keepBefore (items.drop (items.length - n)) after
      -- the weight falls even here, since at least one kept item has moved behind the insertion
      if rest.isEmpty then slideUp ⟨before, moved, after⟩ else slideUp ⟨.keep rest :: before, moved, after⟩
  | ⟨.keep [] :: before, .delete items, after⟩ => slideUp ⟨before, .delete items, after⟩
  | ⟨.delete deleted :: before, .insert items, after⟩ =>
    slideUp ⟨before, .insert items, .delete deleted :: after⟩
  | ⟨.insert inserted :: before, .delete items, after⟩ =>
    slideUp ⟨before, .delete items, .insert inserted :: after⟩
  | ⟨.insert more :: before, .insert items, after⟩ => slideUp ⟨before, .insert (more ++ items), after⟩
  | ⟨.delete more :: before, .delete items, after⟩ => slideUp ⟨before, .delete (more ++ items), after⟩
  | focus => focus
termination_by weight focus.before
decreasing_by
  · simp [weight]
  · simp [weight]
  · have bound := commonEnd_le kept items
    simp only [weight, Edit.items, List.foldr_cons, List.length_take]
    omega
  all_goals simp [weight]

/-- Moves an edit towards the end of its script as far as it goes. -/
def slideDown (focus : Focus α) : Focus α := (slideUp focus.backwards).backwards

/-- Moves each edit that `isMoved` picks, the first one first. -/
def slideEach (isMoved : Edit α → Bool) (before : List (Edit α)) :
    (fuel : Nat) → List (Edit α) → List (Edit α)
  | 0, edits => before.reverse ++ edits
  | _, [] => before.reverse
  | fuel + 1, edit :: after =>
    if isMoved edit then
      let focus := slideDown (slideUp ⟨before, edit, after⟩)
      slideEach isMoved (focus.edit :: focus.before) fuel focus.after
    else slideEach isMoved (edit :: before) fuel after

/-- Tidies a script: first its deletions, then its insertions are moved up and down. -/
def tidy (edits : List (Edit α)) : List (Edit α) :=
  let isDeletion : Edit α → Bool := fun edit => match edit with | .delete _ => true | _ => false
  let isInsertion : Edit α → Bool := fun edit => match edit with | .insert _ => true | _ => false
  let fuel (edits : List (Edit α)) := 2 * (edits.length + 1) * (edits.length + 1)
  let edits := slideEach isDeletion [] (fuel edits) edits
  slideEach isInsertion [] (fuel edits) edits

/-- What happens to one item. -/
inductive Change (α : Type) where
  | keep (item : α)
  | delete (item : α)
  | insert (item : α)
  deriving DecidableEq, Repr

/-- The changes of a script, behind the ones that wait: between kept items deletions come first. -/
def changesFrom (deleted inserted : List α) : List (Edit α) → List (Change α)
  | [] => deleted.map .delete ++ inserted.map .insert
  | .keep items :: rest =>
    deleted.map .delete ++ inserted.map .insert ++ items.map .keep ++ changesFrom [] [] rest
  | .delete items :: rest => changesFrom (deleted ++ items) inserted rest
  | .insert items :: rest => changesFrom deleted (inserted ++ items) rest

def changes (old new : List α) : List (Change α) := changesFrom [] [] (tidy (script old new))

end Excerpt.Diff
