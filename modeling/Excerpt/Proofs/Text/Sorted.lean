import Excerpt.Text.Basic

/-!
# Excerpt — lists in order

Lists of names and of paths are sorted by whether the second of two does not come before the first one. What is sorted
is in order: what stands in front comes first, or is the same.

* **`Sorted.pairwise_mergeSort`** — what is sorted is in order.
* **`Sorted.pairwise_mergeSort_of_nodup`** — and strictly so, where all is different.
-/

namespace Excerpt.Sorted

variable {α : Type} [LT α] [asymm : Std.Asymm (α := α) (· < ·)] [total : Std.Trichotomous (α := α) (· < ·)]

theorem not_lt_iff {a b : α} : ¬ b < a ↔ a < b ∨ a = b := by
  constructor
  · exact fun h => (Classical.em (a < b)).imp id fun hab => total.trichotomous a b hab h
  · rintro (hab | rfl)
    · exact asymm.asymm a b hab
    · exact fun h => asymm.asymm a a h h

variable [DecidableLT α] [Trans (α := α) (· < ·) (· < ·) (· < ·)]

/-- **What is sorted is in order.** -/
theorem pairwise_mergeSort (l : List α) :
    (l.mergeSort fun a b => ! decide (b < a)).Pairwise fun a b => a < b ∨ a = b := by
  have hle : ∀ {a b : α}, (! decide (b < a)) = true ↔ a < b ∨ a = b := fun {a b} => by
    rw [Bool.not_eq_true', decide_eq_false_iff_not, not_lt_iff]
  refine (List.pairwise_mergeSort (fun a b c hab hbc => hle.mpr ?_) (fun a b => ?_) l).imp hle.mp
  · rcases hle.mp hab with hab | rfl
    · rcases hle.mp hbc with hbc | rfl
      · exact Or.inl (Trans.trans hab hbc)
      · exact Or.inl hab
    · exact hle.mp hbc
  · rw [Bool.or_eq_true, hle, hle]
    by_cases hab : b < a
    · exact Or.inr (Or.inl hab)
    · exact Or.inl (not_lt_iff.mp hab)

/-- **What is sorted is strictly in order**, where all is different. -/
theorem pairwise_mergeSort_of_nodup {l : List α} (h : l.Nodup) :
    (l.mergeSort fun a b => ! decide (b < a)).Pairwise (· < ·) := by
  have hnodup : (l.mergeSort fun a b => ! decide (b < a)).Nodup := (List.mergeSort_perm l _).nodup_iff.mpr h
  exact ((pairwise_mergeSort l).and hnodup).imp fun ⟨hab, hne⟩ => hab.resolve_right hne

end Excerpt.Sorted
