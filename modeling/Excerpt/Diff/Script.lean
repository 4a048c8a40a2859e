import Excerpt.Diff.Middle

/-!
Edit scripts. A script goes through two lists and says what both have, what only the first one has and
what only the second one has.
-/

namespace Excerpt.Diff

/-- Items that are kept, deleted or inserted in a row. -/
inductive Edit (α : Type) where
  | keep (items : List α)
  | delete (items : List α)
  | insert (items : List α)
  deriving DecidableEq, Repr

namespace Edit

variable {α : Type}

/-- What the edit is about. -/
def items : Edit α → List α
  | keep items | delete items | insert items => items

/-- What the edit takes from the first list. -/
def old : Edit α → List α
  | keep items | delete items => items
  | insert _ => []

/-- What the edit gives to the second list. -/
def new : Edit α → List α
  | keep items | insert items => items
  | delete _ => []

def backwards : Edit α → Edit α
  | keep items => keep items.reverse
  | delete items => delete items.reverse
  | insert items => insert items.reverse

end Edit

variable {α : Type} [DecidableEq α]

def keeping (items : List α) : List (Edit α) := if items.isEmpty then [] else [.keep items]

/-- A script from one list to another one. What both begin with and what both end with is kept; the rest
is split where a shortest way passes, and where there is no such point, all of it is replaced. -/
def script (old new : List α) : List (Edit α) :=
  let first := commonLength old new
  let oldRest := old.drop first
  let newRest := new.drop first
  -- only what the common start has left can be a common end
  let last := commonEnd oldRest newRest
  let deleted := oldRest.take (oldRest.length - last)
  let inserted := newRest.take (newRest.length - last)
  let replaced :=
    match deleted, inserted with
    | [], [] => []
    | _, [] => [.delete deleted]
    | [], _ => [.insert inserted]
    | _, _ =>
      match middle? deleted inserted with
      | none => [.delete deleted, .insert inserted]
      | some (x, y) =>
        if _shorter : (deleted.take x).length + (inserted.take y).length < old.length + new.length ∧
            (deleted.drop x).length + (inserted.drop y).length < old.length + new.length then
          script (deleted.take x) (inserted.take y) ++ script (deleted.drop x) (inserted.drop y)
        else [.delete deleted, .insert inserted]
  keeping (old.take first) ++ replaced ++ keeping (oldRest.drop (oldRest.length - last))
termination_by old.length + new.length
decreasing_by
  · exact _shorter.1
  · exact _shorter.2

end Excerpt.Diff
