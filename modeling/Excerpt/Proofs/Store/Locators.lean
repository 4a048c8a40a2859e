import Excerpt.Proofs.Text.Trimming
import Excerpt.Store.Locator
import Mathlib.Data.List.DropRight

/-!
# Excerpt — joined locators

Slashes and backslashes at the end of a locator count for nothing where another one is joined to it, and a locator that
holds nothing else vanishes. So a joined locator is told by what trimming leaves of its parts.

* **`Locator.trimEnd_join`** — what trimming leaves of a joined locator.
* **`Locator.IsLastSegment`**, **`Locator.isLastSegment_fileName`** — the file name as the last segment.
* **`Locator.join_composes`** — joining is associative, changes nothing just behind separators alone, and keeps the file
  name of what is joined.
-/

namespace Excerpt.Locator

/-! ## Separators at the end -/

theorem isSeparator_iff {c : Char} : isSeparator c = true ↔ c = '/' ∨ c = '\\' := by
  rw [isSeparator, Bool.or_eq_true, decide_eq_true_iff, decide_eq_true_iff]

theorem isSeparator_eq_false_iff {c : Char} : isSeparator c = false ↔ c ≠ '/' ∧ c ≠ '\\' := by
  rw [← Bool.not_eq_true, isSeparator_iff, not_or]

/-- **Nothing is left just of separators alone.** -/
theorem trimEnd_eq_nil_iff {s : Text} : trimEnd s = [] ↔ ∀ c ∈ s, isSeparator c = true :=
  List.rdropWhile_eq_nil_iff

theorem trimEnd_ne_nil_iff {s : Text} : trimEnd s ≠ [] ↔ ∃ c ∈ s, isSeparator c = false := by
  rw [ne_eq, trimEnd_eq_nil_iff]
  simp only [not_forall, Bool.not_eq_true, exists_prop]

/-! ## Joining -/

theorem join_of_trimEnd_eq_nil {base : Text} (h : trimEnd base = []) (name : Text) : join base name = name := by
  unfold join
  simp only [h, List.isEmpty_nil, if_true]

theorem join_of_trimEnd_ne_nil {base : Text} (h : trimEnd base ≠ []) (name : Text) :
    join base name = trimEnd base ++ '/' :: name := by
  unfold join
  simp only [List.isEmpty_iff, h, if_false]

theorem join_congr {base other : Text} (h : trimEnd base = trimEnd other) (name : Text) :
    join base name = join other name := by
  unfold join
  rw [h]

/-- **What is joined stays as it is just behind separators alone;** behind anything else it becomes longer. -/
theorem join_eq_right_iff {base name : Text} : join base name = name ↔ ∀ c ∈ base, isSeparator c = true := by
  rw [← trimEnd_eq_nil_iff]
  constructor
  · intro heq
    by_contra hne
    rw [join_of_trimEnd_ne_nil hne] at heq
    have hlength := congrArg List.length heq
    rw [List.length_append, List.length_cons] at hlength
    omega
  · exact fun h => join_of_trimEnd_eq_nil h name

/-- The slash of a join goes as well where only separators are joined. -/
theorem trimEnd_join_of_trimEnd_eq_nil {name : Text} (h : trimEnd name = []) (base : Text) :
    trimEnd (join base name) = trimEnd base := by
  by_cases hbase : trimEnd base = []
  · rw [join_of_trimEnd_eq_nil hbase, h, hbase]
  · have hseparators : ∀ c ∈ '/' :: name, isSeparator c = true :=
      List.forall_mem_cons.mpr ⟨by decide, trimEnd_eq_nil_iff.mp h⟩
    rw [join_of_trimEnd_ne_nil hbase]
    calc trimEnd (trimEnd base ++ '/' :: name)
        = trimEnd (trimEnd base) := Text.dropEndWhile_append_of_pos hseparators _
      _ = trimEnd base := Text.dropEndWhile_dropEndWhile _ _

/-- **A joined locator is trimmed in what is joined to it.** -/
theorem trimEnd_join {name : Text} (h : trimEnd name ≠ []) (base : Text) :
    trimEnd (join base name) = join base (trimEnd name) := by
  by_cases hbase : trimEnd base = []
  · rw [join_of_trimEnd_eq_nil hbase, join_of_trimEnd_eq_nil hbase]
  · rw [join_of_trimEnd_ne_nil hbase, join_of_trimEnd_ne_nil hbase]
    calc trimEnd (trimEnd base ++ '/' :: name)
        = trimEnd (trimEnd base ++ ['/'] ++ name) := by rw [List.append_cons]
      _ = trimEnd base ++ ['/'] ++ trimEnd name := Text.dropEndWhile_append_of_ne_nil h _
      _ = trimEnd base ++ '/' :: trimEnd name := (List.append_cons _ _ _).symm

/-- **Locators can be joined from either end.** -/
theorem join_assoc (a b c : Text) : join (join a b) c = join a (join b c) := by
  by_cases hb : trimEnd b = []
  · -- the locator in the middle counts for nothing
    rw [join_congr (trimEnd_join_of_trimEnd_eq_nil hb a), join_of_trimEnd_eq_nil hb]
  · by_cases ha : trimEnd a = []
    · rw [join_of_trimEnd_eq_nil ha, join_of_trimEnd_eq_nil ha]
    · have hjoined : trimEnd (join a b) = trimEnd a ++ '/' :: trimEnd b := by
        rw [trimEnd_join hb, join_of_trimEnd_ne_nil ha]
      have hne : trimEnd (join a b) ≠ [] := by simp [hjoined]
      calc join (join a b) c = trimEnd a ++ '/' :: trimEnd b ++ '/' :: c := by
            rw [join_of_trimEnd_ne_nil hne, hjoined]
        _ = trimEnd a ++ '/' :: (trimEnd b ++ '/' :: c) := by rw [List.append_assoc, List.cons_append]
        _ = join a (join b c) := by rw [join_of_trimEnd_ne_nil ha, join_of_trimEnd_ne_nil hb]

/-! ## The last segment -/

/-- **The name is the last segment of the locator:** nothing in it parts segments, only separators stand behind it, and
in front of it one more or nothing. -/
structure IsLastSegment (s name : Text) : Prop where
  ne_nil : name ≠ []
  whole : ∀ c ∈ name, isSeparator c = false
  parts : ∃ front tail, s = front ++ (name ++ tail) ∧ (∀ c ∈ front.getLast?, isSeparator c = true) ∧
    ∀ c ∈ tail, isSeparator c = true

/-- A locator has one last segment. -/
theorem fileName_of_isLastSegment {s name : Text} (h : IsLastSegment s name) : fileName s = name := by
  obtain ⟨hne, hwhole, front, tail, rfl, hfront, htail⟩ := h
  have htrim : trimEnd (front ++ (name ++ tail)) = front ++ name := by
    rw [← List.append_assoc]
    refine (Text.dropEndWhile_append_of_pos htail _).trans (Text.dropEndWhile_eq_self fun c hc => hwhole c ?_)
    rw [List.getLast?_append_of_ne_nil _ hne] at hc
    exact List.mem_of_getLast? hc
  have hname : ∀ c ∈ name.reverse, (! isSeparator c) = true := by
    intro c hc
    rw [hwhole c (List.mem_reverse.mp hc)]
    rfl
  have hstop : ∀ c ∈ front.reverse.head?, (! isSeparator c) = false := by
    intro c hc
    rw [List.head?_reverse] at hc
    rw [hfront c hc]
    rfl
  unfold fileName
  rw [htrim, List.reverse_append, (Text.span_append hname hstop).1, List.reverse_reverse]

/-- **The file name is the last segment,** where there is one. -/
theorem isLastSegment_fileName {s : Text} (h : ∃ c ∈ s, isSeparator c = false) : IsLastSegment s (fileName s) := by
  obtain ⟨tail, hparts, htail⟩ := Text.exists_dropEndWhile isSeparator s
  have hsplit : (trimEnd s).rdropWhile (! isSeparator ·) ++ fileName s = trimEnd s :=
    List.rdropWhile_append_rtakeWhile
  refine ⟨fun hnil => ?_, fun c hc => ?_, (trimEnd s).rdropWhile (! isSeparator ·), tail, ?_, fun c hc => ?_, htail⟩
  · -- the last character that trimming leaves is no separator
    have hne := trimEnd_ne_nil_iff.mpr h
    have hlast : isSeparator ((trimEnd s).getLast hne) = false :=
      Text.getLast?_dropEndWhile (List.getLast?_eq_some_getLast hne)
    have hseparator := List.rtakeWhile_eq_nil_iff.mp hnil hne
    rw [hlast] at hseparator
    exact hseparator rfl
  · simpa using List.mem_rtakeWhile_imp hc
  · rw [← List.append_assoc, hsplit]
    exact hparts
  · have hstop : (! isSeparator c) = false := Text.getLast?_dropEndWhile hc
    simpa using hstop

/-- The last segment of a locator is what a slash parts from the rest. -/
theorem fileName_append {base name : Text} (hne : name ≠ []) (h : ∀ c ∈ name, isSeparator c = false) :
    fileName (base ++ '/' :: name) = name := by
  refine fileName_of_isLastSegment ⟨hne, h, base ++ ['/'], [], by simp, ?_, by simp⟩
  rw [List.getLast?_concat]
  rintro c ⟨⟩
  decide

/-- What is joined to a locator keeps its last segment. -/
theorem IsLastSegment.join {s name : Text} (h : IsLastSegment s name) (base : Text) :
    IsLastSegment (join base s) name := by
  obtain ⟨hne, hwhole, front, tail, rfl, hfront, htail⟩ := h
  by_cases hbase : trimEnd base = []
  · rw [join_of_trimEnd_eq_nil hbase]
    exact ⟨hne, hwhole, front, tail, rfl, hfront, htail⟩
  · refine ⟨hne, hwhole, trimEnd base ++ '/' :: front, tail, ?_, ?_, htail⟩
    · rw [join_of_trimEnd_ne_nil hbase, List.append_assoc, List.cons_append]
    · -- the slash of the join, or what stood in front of the segment before
      intro c hc
      rw [List.getLast?_append_of_ne_nil _ (List.cons_ne_nil _ _), List.getLast?_cons] at hc
      cases hlast : front.getLast? with
      | none =>
        rw [hlast] at hc
        obtain rfl : '/' = c := by simpa using hc
        decide
      | some d =>
        rw [hlast] at hc
        obtain rfl : d = c := by simpa using hc
        exact hfront d hlast

/-- **Joining composes:** locators can be joined from either end; what is joined stays as it is behind separators alone,
and nowhere else; and its file name, where anything but separators is in it, is that of the whole, namely the last
segment of it. -/
theorem join_composes (a b c : Text) :
    join (join a b) c = join a (join b c) ∧
      (join a b = b ↔ ∀ x ∈ a, x = '/' ∨ x = '\\') ∧
      ((∃ x ∈ b, x ≠ '/' ∧ x ≠ '\\') → fileName (join a b) = fileName b ∧ IsLastSegment b (fileName b)) := by
  refine ⟨join_assoc a b c, ?_, ?_⟩
  · simp only [join_eq_right_iff, isSeparator_iff]
  · intro hsegment
    simp only [← isSeparator_eq_false_iff] at hsegment
    have hlast := isLastSegment_fileName hsegment
    exact ⟨fileName_of_isLastSegment (hlast.join a), hlast⟩

/-- Separators of both kinds at the end of each locator. -/
theorem join_composes_mixedSeparators :
    let a := "P\\/".toList
    let b := "\\bin/Q.cs/\\".toList
    join (join a b) "\\".toList = "P/\\bin/Q.cs/\\".toList ∧ (∃ x ∈ b, x ≠ '/' ∧ x ≠ '\\') ∧
      fileName (join a b) = "Q.cs".toList ∧ (∀ x ∈ "/\\".toList, x = '/' ∨ x = '\\') ∧ join "/\\".toList b = b := by
  intro a b
  have hsegment : ∃ x ∈ b, x ≠ '/' ∧ x ≠ '\\' := ⟨'b', by decide, by decide⟩
  have hseparators : ∀ x ∈ "/\\".toList, x = '/' ∨ x = '\\' := by simp
  obtain ⟨hassoc, -, hname⟩ := join_composes a b "\\".toList
  refine ⟨?_, hsegment, ?_, hseparators, (join_composes _ b []).2.1.mpr hseparators⟩
  · rw [hassoc]
    decide
  · rw [(hname hsegment).1]
    decide

end Excerpt.Locator
