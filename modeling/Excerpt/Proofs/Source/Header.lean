import Excerpt.Source.Header

/-!
# Excerpt — what the header of a member is read as

* **`dropTypeArguments?_append`** — the brackets of type arguments, read backwards, are counted down to
  one at least, as long as the bracket that opens the arguments is not found.
-/

namespace Excerpt.Header

/-! ## Type arguments -/

/-- Behind tokens that do not open the type arguments, the depth is that of the brackets among them, and
it is not zero. Induction on the tokens. -/
theorem dropTypeArguments?_append {depth : Nat} {p : List Code} (hdepth : 0 < depth)
    (h : dropTypeArguments? depth p = none) :
    ∃ depth', 0 < depth' ∧
      depth' + p.countP (·.kind = .angleOpen) = depth + p.countP (·.kind = .angleClose) ∧
      ∀ s, dropTypeArguments? depth (p ++ s) = dropTypeArguments? depth' s := by
  induction p generalizing depth with
  | nil => exact ⟨depth, hdepth, rfl, fun s => rfl⟩
  | cons t p ih =>
    by_cases hclose : t.kind = .angleClose
    · have hstep : ∀ s, dropTypeArguments? depth (t :: s) = dropTypeArguments? (depth + 1) s := by
        intro s
        simp [dropTypeArguments?, hclose]
      rw [hstep] at h
      obtain ⟨depth', hpos, hcount, happend⟩ := ih (Nat.succ_pos depth) h
      refine ⟨depth', hpos, ?_, fun s => (hstep (p ++ s)).trans (happend s)⟩
      rw [List.countP_cons_of_neg (by simp [hclose]), List.countP_cons_of_pos (by simp [hclose])]
      omega
    · by_cases hopen : t.kind = .angleOpen
      · -- at depth one this bracket would open the arguments
        have hdeep : ¬ depth ≤ 1 := by
          intro hle
          simp [dropTypeArguments?, hopen, hle] at h
        have hstep : ∀ s, dropTypeArguments? depth (t :: s) = dropTypeArguments? (depth - 1) s := by
          intro s
          simp [dropTypeArguments?, hopen, hdeep]
        rw [hstep] at h
        obtain ⟨depth', hpos, hcount, happend⟩ := ih (by omega) h
        refine ⟨depth', hpos, ?_, fun s => (hstep (p ++ s)).trans (happend s)⟩
        rw [List.countP_cons_of_pos (by simp [hopen]), List.countP_cons_of_neg (by simp [hopen])]
        omega
      · have hstep : ∀ s, dropTypeArguments? depth (t :: s) = dropTypeArguments? depth s := by
          intro s
          rw [dropTypeArguments?.eq_def]
          split <;> simp_all
        rw [hstep] at h
        obtain ⟨depth', hpos, hcount, happend⟩ := ih hdepth h
        refine ⟨depth', hpos, ?_, fun s => (hstep (p ++ s)).trans (happend s)⟩
        simpa [List.countP_cons, hclose, hopen] using hcount

/-- **From the bracket that closes type arguments on, the depth is positive until they are left.** -/
theorem dropTypeArguments?_depth_pos {t : Code} {p : List Code} (ht : t.kind = .angleClose)
    (h : dropTypeArguments? 0 (t :: p) = none) :
    ∃ depth, 0 < depth ∧ ∀ s, dropTypeArguments? 0 (t :: p ++ s) = dropTypeArguments? depth s := by
  have hstep : ∀ s, dropTypeArguments? 0 (t :: s) = dropTypeArguments? 1 s := by
    intro s
    simp [dropTypeArguments?, ht]
  rw [hstep] at h
  obtain ⟨depth, hpos, -, happend⟩ := dropTypeArguments?_append Nat.one_pos h
  exact ⟨depth, hpos, fun s => (hstep (p ++ s)).trans (happend s)⟩

end Excerpt.Header
