import Excerpt.Text.AsciiCase
import Mathlib.Data.List.TakeWhile

/-!
# Excerpt — what trimming and cutting leave

Trimming takes white space off the ends of a text, and cutting parts it at the first character of a sort. Both are
told by what the parts begin and end with.

* **`Text.exists_trim`**, **`Text.trim_eq_self_iff`** — a text is what trimming leaves between white space, and
  trimming leaves a text alone just where no white space is at its ends.
* **`Text.trim_append_of_isBlank`**, **`Text.trim_of_isBlank_append`** — white space put at an end is trimmed.
* **`Text.splitFirst?_eq_some_iff`**, **`Text.splitFirst?_eq_none_iff`** — where a text is cut, and with
  **`Text.splitFirst?_char_eq_some_iff`** and **`Text.splitFirst?_char_eq_none_iff`** at one character.
* **`Text.dropPrefixIgnoreCase?_eq_some_iff`** — what a text begins with, up to case.
-/

namespace Excerpt.Text

/-! ## Dropped ends -/

theorem exists_dropEndWhile (p : Char → Bool) (s : Text) :
    ∃ tail, s = dropEndWhile p s ++ tail ∧ ∀ c ∈ tail, p c = true := by
  refine ⟨(s.reverse.takeWhile p).reverse, ?_, fun c hc => List.mem_takeWhile_imp (List.mem_reverse.mp hc)⟩
  rw [dropEndWhile, ← List.reverse_append, List.takeWhile_append_dropWhile, List.reverse_reverse]

theorem getLast?_dropEndWhile {p : Char → Bool} {s : Text} {c : Char}
    (h : (dropEndWhile p s).getLast? = some c) : p c = false := by
  rw [dropEndWhile, List.getLast?_reverse] at h
  have hnot := List.head?_dropWhile_not p s.reverse
  rw [h] at hnot
  simpa using hnot

/-- What ends in a character that stays keeps its end. -/
theorem dropEndWhile_eq_self {p : Char → Bool} {s : Text} (h : ∀ c ∈ s.getLast?, p c = false) :
    dropEndWhile p s = s := by
  unfold dropEndWhile
  rw [← List.head?_reverse] at h
  cases hreverse : s.reverse with
  | nil => rw [List.reverse_eq_nil_iff.mp hreverse]; rfl
  | cons c r =>
    rw [hreverse] at h
    rw [List.dropWhile_cons_of_neg (by rw [h c rfl]; decide), ← hreverse, List.reverse_reverse]

theorem dropEndWhile_dropEndWhile (p : Char → Bool) (s : Text) :
    dropEndWhile p (dropEndWhile p s) = dropEndWhile p s :=
  dropEndWhile_eq_self fun _ hc => getLast?_dropEndWhile hc

theorem dropEndWhile_append_of_pos {p : Char → Bool} {tail : Text} (h : ∀ c ∈ tail, p c = true) (s : Text) :
    dropEndWhile p (s ++ tail) = dropEndWhile p s := by
  rw [dropEndWhile, List.reverse_append,
    List.dropWhile_append_of_pos fun c hc => h c (List.mem_reverse.mp hc)]
  rfl

/-- Dropping from the end stops at what stays, so it does not reach what stands in front of that. -/
theorem dropEndWhile_append_of_ne_nil {p : Char → Bool} {b : Text} (hb : dropEndWhile p b ≠ []) (a : Text) :
    dropEndWhile p (a ++ b) = a ++ dropEndWhile p b := by
  obtain ⟨tail, htail, hdropped⟩ := exists_dropEndWhile p b
  have hlast : ∀ c ∈ (a ++ dropEndWhile p b).getLast?, p c = false := by
    intro c hc
    rw [List.getLast?_append, Option.or_of_isSome (List.getLast?_isSome.mpr hb)] at hc
    exact getLast?_dropEndWhile hc
  calc dropEndWhile p (a ++ b) = dropEndWhile p (a ++ dropEndWhile p b ++ tail) := by
        rw [List.append_assoc, ← htail]
    _ = dropEndWhile p (a ++ dropEndWhile p b) := dropEndWhile_append_of_pos hdropped _
    _ = a ++ dropEndWhile p b := dropEndWhile_eq_self hlast

/-! ## Trimming -/

theorem isBlank_iff {s : Text} : isBlank s = true ↔ ∀ c ∈ s, isWhiteSpace c = true := List.all_eq_true

theorem trim_of_isBlank_append {a : Text} (ha : isBlank a = true) (s : Text) : trim (a ++ s) = trim s := by
  unfold trim trimStart
  rw [List.dropWhile_append_of_pos (isBlank_iff.mp ha)]

theorem trim_append_of_isBlank {b : Text} (hb : isBlank b = true) (s : Text) : trim (s ++ b) = trim s := by
  unfold trim trimStart
  rw [List.dropWhile_append]
  split
  · next hnil =>
    -- both texts are blank, and nothing is left of them
    rw [List.isEmpty_iff.mp hnil, List.dropWhile_eq_nil_iff.mpr (isBlank_iff.mp hb)]
  · exact dropEndWhile_append_of_pos (isBlank_iff.mp hb) _

/-- **A text is what trimming leaves of it, between white space.** -/
theorem exists_trim (s : Text) : ∃ a b, s = a ++ (trim s ++ b) ∧ isBlank a = true ∧ isBlank b = true := by
  obtain ⟨b, hb, hblank⟩ := exists_dropEndWhile isWhiteSpace (trimStart s)
  refine ⟨s.takeWhile isWhiteSpace, b, ?_, ?_, isBlank_iff.mpr hblank⟩
  · show s = s.takeWhile isWhiteSpace ++ (dropEndWhile isWhiteSpace (trimStart s) ++ b)
    rw [← hb, trimStart, List.takeWhile_append_dropWhile]
  · exact isBlank_iff.mpr fun c hc => List.mem_takeWhile_imp hc

theorem infix_trim (s : Text) : trim s <:+: s := by
  obtain ⟨a, b, h, -, -⟩ := exists_trim s
  refine ⟨a, b, ?_⟩
  rw [List.append_assoc]
  exact h.symm

theorem getLast?_trim {s : Text} {c : Char} (h : (trim s).getLast? = some c) : isWhiteSpace c = false :=
  getLast?_dropEndWhile h

theorem head?_trimStart {s : Text} {c : Char} (h : (trimStart s).head? = some c) : isWhiteSpace c = false := by
  have hnot := List.head?_dropWhile_not isWhiteSpace s
  rw [show s.dropWhile isWhiteSpace = trimStart s from rfl, h] at hnot
  simpa using hnot

theorem head?_trim {s : Text} {c : Char} (h : (trim s).head? = some c) : isWhiteSpace c = false := by
  -- the first character is that of what is left when the start is trimmed
  obtain ⟨b, hb, -⟩ := exists_dropEndWhile isWhiteSpace (trimStart s)
  have hfirst : (trimStart s).head? = some c := by
    rw [hb]
    show (trim s ++ b).head? = some c
    rw [List.head?_append, h]
    rfl
  exact head?_trimStart hfirst

/-- A first character that is no white space stays. -/
theorem head?_trim_cons {c : Char} (hc : isWhiteSpace c = false) (s : Text) : (trim (c :: s)).head? = some c := by
  obtain ⟨a, b, hparts, ha, hb⟩ := exists_trim (c :: s)
  cases a with
  | cons d a =>
    obtain ⟨rfl, -⟩ := List.cons.inj hparts
    rw [isBlank_iff.mp ha c List.mem_cons_self] at hc
    cases hc
  | nil =>
    rw [List.nil_append] at hparts
    cases htrim : trim (c :: s) with
    | cons d t =>
      rw [htrim] at hparts
      exact congrArg some (List.cons.inj hparts).1.symm
    | nil =>
      rw [htrim, List.nil_append] at hparts
      rw [isBlank_iff.mp hb c (by rw [← hparts]; exact List.mem_cons_self)] at hc
      cases hc

/-- **Trimming leaves a text alone** just where no white space is at its ends. -/
theorem trim_eq_self_iff {s : Text} :
    trim s = s ↔ (∀ c ∈ s.head?, isWhiteSpace c = false) ∧ ∀ c ∈ s.getLast?, isWhiteSpace c = false := by
  constructor
  · intro h
    constructor
    · intro c hc
      exact head?_trim (by rwa [h])
    · intro c hc
      exact getLast?_trim (by rwa [h])
  · rintro ⟨hhead, hlast⟩
    have hstart : trimStart s = s := by
      cases s with
      | nil => rfl
      | cons c s => exact List.dropWhile_cons_of_neg (by rw [hhead c rfl]; decide)
    rw [trim, hstart]
    exact dropEndWhile_eq_self hlast

theorem trim_trim (s : Text) : trim (trim s) = trim s :=
  trim_eq_self_iff.mpr ⟨fun _ hc => head?_trim hc, fun _ hc => getLast?_trim hc⟩

/-- White space is not at the end of what trimming leaves alone. -/
theorem eq_nil_of_trim_append {a b : Text} (h : trim (a ++ b) = a ++ b) (hb : isBlank b = true) : b = [] := by
  by_contra hne
  obtain ⟨c, hc⟩ := Option.isSome_iff_exists.mp (List.getLast?_isSome.mpr hne)
  have hlast : (a ++ b).getLast? = some c := by rw [List.getLast?_append, hc, Option.some_or]
  have hwhite : isWhiteSpace c = true := isBlank_iff.mp hb c (List.mem_of_getLast? hc)
  rw [(trim_eq_self_iff.mp h).2 c hlast] at hwhite
  exact Bool.noConfusion hwhite

theorem isBlank_of_trim_eq_nil {s : Text} (h : trim s = []) : isBlank s = true := by
  obtain ⟨a, b, hs, ha, hb⟩ := exists_trim s
  rw [hs, h, List.nil_append, isBlank, List.all_append]
  exact Bool.and_eq_true_iff.mpr ⟨ha, hb⟩

/-- What stands between two texts that trimming leaves alone, and that are not empty, is out of its reach. -/
theorem trim_append_append {a b : Text} (ha : trim a = a) (hb : trim b = b) (hane : a ≠ []) (hbne : b ≠ [])
    (s : Text) : trim (a ++ (s ++ b)) = a ++ (s ++ b) := by
  apply trim_eq_self_iff.mpr
  constructor
  · obtain ⟨c, a', rfl⟩ := List.exists_cons_of_ne_nil hane
    exact (trim_eq_self_iff.mp ha).1
  · rw [← List.append_assoc, List.getLast?_append, Option.or_of_isSome (List.getLast?_isSome.mpr hbne)]
    exact (trim_eq_self_iff.mp hb).2

/-! ## Cutting at the first character of a sort -/

/-- **Where a text is cut:** at the first character of the sort. -/
theorem splitFirst?_eq_some_iff {p : Char → Bool} {s a b : Text} :
    splitFirst? p s = some (a, b) ↔ ∃ d, s = a ++ d :: b ∧ (∀ c ∈ a, p c = false) ∧ p d = true := by
  constructor
  · intro h
    unfold splitFirst? at h
    have hparts := List.takeWhile_append_dropWhile (p := (! p ·)) (l := s)
    have hfree : ∀ c ∈ s.takeWhile (! p ·), p c = false := by
      intro c hc
      simpa using List.mem_takeWhile_imp hc
    split at h
    · simp at h
    · next d after hdrop =>
      obtain ⟨rfl, rfl⟩ := Prod.mk.inj (Option.some.inj h)
      have hfirst := List.head?_dropWhile_not (! p ·) s
      rw [hdrop] at hfirst hparts
      exact ⟨d, hparts.symm, hfree, by simpa using hfirst⟩
  · rintro ⟨d, rfl, ha, hd⟩
    have hall : ∀ c ∈ a, (! p c) = true := by
      intro c hc
      rw [ha c hc]
      rfl
    have hstop : ¬ (! p d) = true := by
      rw [hd]
      decide
    unfold splitFirst?
    rw [List.dropWhile_append_of_pos hall, List.dropWhile_cons_of_neg (p := (! p ·)) hstop]
    dsimp only
    rw [List.takeWhile_append_of_pos hall, List.takeWhile_cons_of_neg (p := (! p ·)) hstop, List.append_nil]

theorem splitFirst?_eq_none_iff {p : Char → Bool} {s : Text} :
    splitFirst? p s = none ↔ ∀ c ∈ s, p c = false := by
  unfold splitFirst?
  split
  · next hnil =>
    have hall := List.dropWhile_eq_nil_iff.mp hnil
    exact iff_of_true rfl fun c hc => by simpa using hall c hc
  · next d after hdrop =>
    have hmem : d ∈ s := (List.dropWhile_suffix (! p ·)).subset (by rw [hdrop]; exact List.mem_cons_self)
    have hfirst := List.head?_dropWhile_not (! p ·) s
    rw [hdrop] at hfirst
    refine iff_of_false (by simp) fun hall => ?_
    have hd : (! p d) = false := hfirst
    rw [hall d hmem] at hd
    exact Bool.noConfusion hd

theorem splitFirst?_char_eq_some_iff {d : Char} {s a b : Text} :
    splitFirst? (· = d) s = some (a, b) ↔ s = a ++ d :: b ∧ d ∉ a := by
  rw [splitFirst?_eq_some_iff]
  constructor
  · rintro ⟨c, rfl, hfree, hc⟩
    obtain rfl := of_decide_eq_true hc
    exact ⟨rfl, fun hmem => of_decide_eq_false (hfree c hmem) rfl⟩
  · rintro ⟨rfl, hfree⟩
    exact ⟨d, rfl, fun c hc => decide_eq_false fun h => hfree (h ▸ hc), decide_eq_true rfl⟩

theorem splitFirst?_char_eq_none_iff {d : Char} {s : Text} : splitFirst? (· = d) s = none ↔ d ∉ s := by
  rw [splitFirst?_eq_none_iff]
  constructor
  · exact fun hfree hmem => of_decide_eq_false (hfree d hmem) rfl
  · exact fun hfree c hc => decide_eq_false fun h => hfree (h ▸ hc)

/-- A text that goes on with a character of another sort is cut there. -/
theorem span_append {p : Char → Bool} {a b : Text} (ha : ∀ c ∈ a, p c = true) (hb : ∀ c ∈ b.head?, p c = false) :
    (a ++ b).takeWhile p = a ∧ (a ++ b).dropWhile p = b := by
  rw [List.takeWhile_append_of_pos ha, List.dropWhile_append_of_pos ha]
  cases b with
  | nil => exact ⟨List.append_nil a, rfl⟩
  | cons c b =>
    have hc : ¬ p c = true := by
      rw [hb c rfl]
      exact Bool.false_ne_true
    rw [List.takeWhile_cons_of_neg hc, List.dropWhile_cons_of_neg hc]
    exact ⟨List.append_nil a, rfl⟩

/-! ## Pieces and joining -/

/-- Pieces joined by line feeds are all ended by one but the last. -/
theorem intercalate_concat (ls : List Text) (l : Text) :
    ['\n'].intercalate (ls ++ [l]) = ls.flatMap (· ++ ['\n']) ++ l := by
  induction ls with
  | nil => simp [List.intercalate]
  | cons a ls ih =>
    rw [List.cons_append, List.intercalate_cons_of_ne_nil (by simp), ih, List.flatMap_cons]
    simp only [List.append_assoc]

theorem not_mem_of_mem_splitOn {d : Char} {s l : Text} (h : l ∈ s.splitOn d) : d ∉ l := by
  unfold List.splitOn at h
  induction s generalizing l with
  | nil =>
    rw [List.splitOnP_nil, List.mem_singleton] at h
    simp [h]
  | cons c s ih =>
    rw [List.splitOnP_cons_eq_if_modifyHead] at h
    obtain ⟨first, rest, hpieces⟩ := List.exists_cons_of_ne_nil
      (List.splitOnP_ne_nil (fun x => x == d) s)
    rw [hpieces] at h ih
    split at h
    · rcases List.mem_cons.mp h with rfl | hmem
      · simp
      · exact ih hmem
    · next hc =>
      rw [List.modifyHead_cons] at h
      rcases List.mem_cons.mp h with rfl | hmem
      · have hfirst := ih List.mem_cons_self
        simp only [List.mem_cons, not_or]
        exact ⟨fun heq => hc (by simp [← heq]), hfirst⟩
      · exact ih (List.mem_cons_of_mem _ hmem)

theorem infix_intercalate_of_mem {sep : Text} {ls : List Text} {l : Text} (h : l ∈ ls) :
    l <:+: sep.intercalate ls := by
  induction ls with
  | nil => cases h
  | cons a ls ih =>
    by_cases hls : ls = []
    · obtain rfl : l = a := by simpa [hls] using h
      rw [hls]
      exact ⟨[], [], by simp [List.intercalate]⟩
    · rw [List.intercalate_cons_of_ne_nil hls]
      rcases List.mem_cons.mp h with rfl | hmem
      · exact ⟨[], sep ++ sep.intercalate ls, by simp⟩
      · exact (ih hmem).trans (List.suffix_append _ _).isInfix

theorem infix_of_mem_splitOn {d : Char} {s l : Text} (h : l ∈ s.splitOn d) : l <:+: s := by
  have hpart : l <:+: [d].intercalate (s.splitOn d) := infix_intercalate_of_mem h
  rwa [List.intercalate_splitOn] at hpart

theorem mem_intercalate {sep : Text} {parts : List Text} {c : Char} (h : c ∈ sep.intercalate parts) :
    c ∈ sep ∨ ∃ s ∈ parts, c ∈ s := by
  rw [List.intercalate, List.mem_flatten] at h
  obtain ⟨s, hs, hc⟩ := h
  induction parts with
  | nil => simp at hs
  | cons first rest ih =>
    cases rest with
    | nil => exact Or.inr ⟨first, List.mem_singleton_self first, by simpa [List.mem_singleton.mp hs] using hc⟩
    | cons second rest =>
      rw [List.intersperse_cons_cons, List.mem_cons, List.mem_cons] at hs
      rcases hs with rfl | rfl | hs
      · exact Or.inr ⟨_, List.mem_cons_self, hc⟩
      · exact Or.inl hc
      · exact (ih hs).imp_right fun ⟨s', hs', hc'⟩ => ⟨s', List.mem_cons_of_mem first hs', hc'⟩

/-- **What a text begins with, up to case:** a front that is the start in lower case. Induction on the start. -/
theorem dropPrefixIgnoreCase?_eq_some_iff {start s rest : Text} :
    dropPrefixIgnoreCase? start s = some rest ↔ ∃ front, s = front ++ rest ∧ lower front = lower start := by
  induction start generalizing s with
  | nil =>
    constructor
    · rintro ⟨⟩
      exact ⟨[], rfl, rfl⟩
    · rintro ⟨front, rfl, hlower⟩
      rw [List.map_eq_nil_iff.mp hlower]
      rfl
  | cons p start ih =>
    have hne : ∀ front : Text, lower front = lower (p :: start) →
        ∃ c front', front = c :: front' ∧ p.toLower = c.toLower ∧ lower front' = lower start := by
      rintro (_ | ⟨c, front'⟩) hlower
      · cases hlower
      · exact ⟨c, front', rfl, (List.cons.inj hlower).1.symm, (List.cons.inj hlower).2⟩
    cases s with
    | nil =>
      refine ⟨fun h => absurd h (by simp [dropPrefixIgnoreCase?]), ?_⟩
      rintro ⟨front, hnil, hlower⟩
      obtain ⟨c, front', rfl, -⟩ := hne front hlower
      cases hnil
    | cons c s =>
      unfold dropPrefixIgnoreCase?
      split
      · next hc =>
        rw [ih]
        constructor
        · rintro ⟨front, rfl, hlower⟩
          exact ⟨c :: front, rfl, congrArg₂ List.cons hc.symm hlower⟩
        · rintro ⟨front, hs, hlower⟩
          obtain ⟨d, front', rfl, -, hrest⟩ := hne front hlower
          exact ⟨front', (List.cons.inj hs).2, hrest⟩
      · next hc =>
        refine ⟨fun h => absurd h (by simp), ?_⟩
        rintro ⟨front, hs, hlower⟩
        obtain ⟨d, front', rfl, hd, -⟩ := hne front hlower
        obtain ⟨rfl, -⟩ := List.cons.inj hs
        exact absurd hd hc

/-- A text that begins with the start, letter by letter, begins with it up to case. -/
theorem dropPrefixIgnoreCase?_append (start s : Text) : dropPrefixIgnoreCase? start (start ++ s) = some s :=
  dropPrefixIgnoreCase?_eq_some_iff.mpr ⟨start, rfl, rfl⟩

end Excerpt.Text
