import Excerpt.Project
import Excerpt.Proofs.Document.Renewal

/-!
# Excerpt — documents that were brought up to date

A document without a failure is up to date once its new text was written: whatever engine processes it then, over
whatever store, it has nothing to change, as long as the directives of its regions get the answers that they got
before.

* **`Document.Status.isSettled`**, **`Document.Status.settledText`** — there is nothing to write, and the text of which
  this is said once all was written.
* **`Document.process_eq_ok_of_answers`** — what is written depends on the answers to the directives of regions.
* **`Document.isSettled_settledText`** — the text that was written is settled.
-/

namespace Excerpt

/-- Both engines give the same answers to the directives of the regions of a text. -/
def AnswersAlike (answer answer' : Text → Except Error Text) (text : Text) : Prop :=
  ∀ pieces, IsDivision 0 (Text.lines text) pieces → ∀ opening old closing, Piece.region opening old closing ∈ pieces →
    answer' opening.trimmed = answer opening.trimmed

namespace Document

namespace Status

/-- Whether there is nothing to write and nothing to complain about. -/
def isSettled : Status → Bool
  | noChanges => true
  | noExcerpts => true
  | _ => false

/-- The text of a document once it was written, if it was to be. -/
def settledText (status : Status) (text : Text) : Text := status.content?.getD text

theorem isSettled_iff {status : Status} : status.isSettled ↔ status = noChanges ∨ status = noExcerpts := by
  cases status <;> simp [isSettled]

theorem content?_of_isSettled {status : Status} (h : status.isSettled) : status.content? = none := by
  rcases isSettled_iff.mp h with rfl | rfl <;> rfl

theorem not_isFailed_of_isSettled {status : Status} (h : status.isSettled) : ¬ status.isFailed := by
  rcases isSettled_iff.mp h with rfl | rfl <;> exact Bool.false_ne_true

theorem noOutline?_of_isSettled {status : Status} (h : status.isSettled) : status.noOutline? = none := by
  rcases isSettled_iff.mp h with rfl | rfl <;> rfl

end Status

variable {store store' : Store} {engine engine' : Engine}

/-- **What is written depends on the answers to the directives of regions.** -/
theorem process_eq_ok_of_answers {text : Text} {result : Text × Bool} (h : (process store engine text).1 = .ok result)
    (hsame : AnswersAlike (engine.answer store) (engine'.answer store') text) :
    (process store' engine' text).1 = .ok result := by
  obtain ⟨written, changed⟩ := result
  obtain ⟨pieces, hdiv, hans, hwritten, hchanged⟩ := process_eq_ok_iff.mp h
  have hrenewed : ∀ p ∈ pieces, p.Answered (engine'.answer store') ∧
      p.renewed (engine.answer store) = p.renewed (engine'.answer store') := by
    intro p hp
    have hanswered := hans p hp
    cases p with
    | kept line => exact ⟨trivial, rfl⟩
    | region opening old closing =>
      have hanswer := hsame pieces hdiv opening old closing hp
      obtain ⟨rendered, hrendered⟩ := hanswered
      rw [← hanswer] at hrendered
      refine ⟨⟨rendered, hrendered⟩, ?_⟩
      rw [Piece.renewed_region hrendered, Piece.renewed_region (hanswer.symm.trans hrendered)]
  refine process_eq_ok_iff.mpr ⟨pieces, hdiv, fun p hp => (hrenewed p hp).1, ?_, hchanged⟩
  rw [hwritten, List.flatMap_def, List.flatMap_def, List.map_congr_left fun p hp => (hrenewed p hp).2]

/-- A document without a failure is processed. -/
theorem exists_process_eq_ok_of_sync {text : Text} (h : ¬ (sync store engine text).1.isFailed) :
    ∃ written changed, (process store engine text).1 = .ok (written, changed) := by
  cases hresult : (process store engine text).1 with
  | ok result => exact ⟨result.1, result.2, rfl⟩
  | error failures =>
    refine absurd ?_ h
    unfold sync processInto
    revert hresult
    obtain ⟨result, behind⟩ := process store engine text
    rintro rfl
    rfl

/-- **A document that was brought up to date is settled,** whatever engine says so later and over whatever store, where
the directives of its regions get the answers that they got, and no answer closes a region. -/
theorem isSettled_settledText {text : Text} (h : ¬ (sync store engine text).1.isFailed)
    (hopen : RendersNoEndMarker (engine.answer store) text)
    (hsame : AnswersAlike (engine.answer store) (engine'.answer store') text) :
    (sync store' engine' ((sync store engine text).1.settledText text)).1.isSettled := by
  obtain ⟨written, changed, hprocess⟩ := exists_process_eq_ok_of_sync h
  have hagain := process_eq_ok_of_answers hprocess hsame
  rw [sync_of_process_eq_ok hprocess]
  cases changed with
  | false =>
    show (sync store' engine' text).1.isSettled
    rw [sync_of_process_eq_ok hagain]
    rfl
  | true =>
    -- what is written is what stands there then, whether it was new or not
    have htext : (if ! true then Status.noExcerpts else if written = text then .noChanges
        else .updated written).settledText text = written := by
      by_cases hwritten : written = text
      · rw [if_neg (by decide), if_pos hwritten, hwritten]
        rfl
      · rw [if_neg (by decide), if_neg hwritten]
        rfl
    rw [htext, sync_of_process_eq_ok (process_written hprocess hopen hagain)]
    simp [Status.isSettled]

end Document

end Excerpt
