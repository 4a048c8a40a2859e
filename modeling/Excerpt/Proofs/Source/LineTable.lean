import Excerpt.Proofs.Source.Offsets

/-!
# Excerpt — what a line table answers

The starts of the lines are recorded in increasing order and searched by halving. What the search finds is
the number of line feeds before an offset, so nothing that is said of lines needs the search again.

* **`LineTable.le_lineOf_iff`** — a line is not behind that of an offset just where it starts at the offset
  or before.
* **`LineTable.lineOf_eq_count`** — the line of an offset is the number of line feeds before it.
* **`LineTable.startOfLineAt_width`**, **`LineTable.columnOf_width`** — where the line of an offset starts,
  and how far behind it the offset is.
-/

namespace Excerpt

namespace Text

theorem takeBytes_cons_of_lt {c : Char} {n : Nat} (h : n < c.utf8Size) (s : Text) :
    takeBytes n (c :: s) = [] := by
  cases n with
  | zero => rfl
  | succ n => rw [takeBytes, if_neg (by omega)]

/-- The last line of a text, and what stands before it. -/
theorem exists_last_line (p : Text) :
    ∃ a b, p = a ++ b ∧ (a = [] ∨ a.getLast? = some '\n') ∧ '\n' ∉ b := by
  induction p with
  | nil => exact ⟨[], [], rfl, Or.inl rfl, List.not_mem_nil⟩
  | cons c p ih =>
    obtain ⟨a, b, rfl, ha | ha, hb⟩ := ih
    · by_cases hc : c = '\n'
      · exact ⟨[c], b, by rw [ha]; rfl, Or.inr (by rw [hc]; rfl), hb⟩
      · refine ⟨[], c :: b, by rw [ha]; rfl, Or.inl rfl, ?_⟩
        apply List.not_mem_cons_of_ne_of_not_mem (Ne.symm hc) hb
    · refine ⟨c :: a, b, rfl, Or.inr ?_, hb⟩
      have hne : a ≠ [] := by
        rintro rfl
        cases ha
      rw [List.getLast?_cons_of_ne_nil hne, ha]

end Text

/-! ## The recorded starts -/

/-- As many lines start up to an offset as line feeds stand before it. Induction along the text. -/
theorem countP_offsetsAfterLineFeeds (offset n : Nat) (s : Text) :
    (offsetsAfterLineFeeds offset s).countP (· ≤ offset + n) = (Text.takeBytes n s).count '\n' := by
  induction s generalizing offset n with
  | nil => cases n <;> rfl
  | cons c s ih =>
    by_cases hfits : c.utf8Size ≤ n
    · have hrest := ih (offset + c.utf8Size) (n - c.utf8Size)
      rw [show offset + c.utf8Size + (n - c.utf8Size) = offset + n from by omega] at hrest
      rw [Text.takeBytes_cons hfits, offsetsAfterLineFeeds]
      by_cases hfeed : c = '\n'
      · rw [if_pos hfeed, List.countP_cons_of_pos (by simpa using hfits), hrest, hfeed,
          List.count_cons_self]
      · rw [if_neg hfeed, hrest, List.count_cons_of_ne hfeed]
    · rw [Text.takeBytes_cons_of_lt (by omega), List.count_nil, List.countP_eq_zero]
      intro m hm
      -- all starts are behind this character, and the offset is before its end
      have hle : offset + c.utf8Size ≤ m := by
        unfold offsetsAfterLineFeeds at hm
        dsimp only at hm
        split at hm
        · rcases List.mem_cons.mp hm with rfl | hm
          · exact Nat.le_refl _
          · obtain ⟨p, -, rfl⟩ := mem_offsetsAfterLineFeeds hm
            exact Nat.le_add_right _ _
        · obtain ⟨p, -, rfl⟩ := mem_offsetsAfterLineFeeds hm
          exact Nat.le_add_right _ _
      simp only [decide_eq_true_eq]
      omega

theorem pairwise_offsetsAfterLineFeeds (offset : Nat) (s : Text) :
    (offset :: offsetsAfterLineFeeds offset s).Pairwise (· < ·) := by
  induction s generalizing offset with
  | nil => simp [offsetsAfterLineFeeds]
  | cons c s ih =>
    have hpos := c.utf8Size_pos
    have hrest := ih (offset + c.utf8Size)
    obtain ⟨hbehind, hsorted⟩ := List.pairwise_cons.mp hrest
    rw [offsetsAfterLineFeeds]
    split
    · refine List.pairwise_cons.mpr ⟨?_, hrest⟩
      intro m hm
      rcases List.mem_cons.mp hm with rfl | hm
      · omega
      · have hlt := hbehind m hm
        omega
    · refine List.pairwise_cons.mpr ⟨?_, hsorted⟩
      intro m hm
      have hlt := hbehind m hm
      omega

/-- The line behind a line feed starts there. -/
theorem getElem?_offsetsAfterLineFeeds (offset : Nat) (a t : Text) :
    (offsetsAfterLineFeeds offset (a ++ '\n' :: t))[a.count '\n']? =
      some (offset + Text.width a + 1) := by
  induction a generalizing offset with
  | nil => rfl
  | cons c a ih =>
    have hrest := ih (offset + c.utf8Size)
    rw [List.cons_append, offsetsAfterLineFeeds, Text.width_cons]
    split
    · next hfeed =>
      subst hfeed
      rw [List.count_cons_self, List.getElem?_cons_succ, hrest]
      congr 1
      omega
    · next hfeed =>
      rw [List.count_cons_of_ne hfeed, hrest]
      congr 1
      omega

/-- A list that satisfies a condition just up to a position satisfies it that many times. -/
theorem countP_eq_of_lt_iff {l : List Nat} {p : Nat → Bool} {r : Nat} (hr : r ≤ l.length)
    (h : ∀ (i : Nat) (hi : i < l.length), i < r ↔ p l[i] = true) : l.countP p = r := by
  induction l generalizing r with
  | nil => exact (Nat.le_zero.mp hr).symm
  | cons a l ih =>
    have hrest : ∀ (i : Nat) (hi : i < l.length), i < r - 1 ↔ p l[i] = true := by
      intro i hi
      rw [← List.getElem_cons_succ a l i (Nat.succ_lt_succ hi), ← h]
      omega
    have hcount := ih (r := r - 1) (by rw [List.length_cons] at hr; omega) hrest
    by_cases ha : p a = true
    · have hpos : 0 < r := (h 0 (Nat.succ_pos _)).mpr ha
      rw [List.countP_cons_of_pos ha, hcount]
      omega
    · have hzero : ¬ 0 < r := fun hpos => ha ((h 0 (Nat.succ_pos _)).mp hpos)
      rw [List.countP_cons_of_neg ha, hcount]
      omega

namespace LineTable

/-! ## The search -/

/-- The starts do not decrease. -/
def Sorted (table : LineTable) : Prop :=
  ∀ i j : Nat, i ≤ j → j < table.starts.size → table.starts.getD i 0 ≤ table.starts.getD j 0

/-- **The search finds the boundary between the starts up to the offset and those behind it.** The
invariant is that this boundary lies in the interval. -/
theorem lt_countUpTo_iff {table : LineTable} (hsorted : table.Sorted) {offset lo hi : Nat}
    (hhi : hi ≤ table.starts.size) (hlo : ∀ i < lo, table.starts.getD i 0 ≤ offset)
    (hbehind : ∀ i, hi ≤ i → i < table.starts.size → offset < table.starts.getD i 0)
    (i : Nat) (hi' : i < table.starts.size) :
    i < table.countUpTo offset lo hi ↔ table.starts.getD i 0 ≤ offset := by
  fun_induction countUpTo table offset lo hi with
  | case1 lo hi hlt mid hle ih =>
    refine ih hhi ?_ hbehind
    intro j hj
    exact Nat.le_trans (hsorted j mid (by omega) (by omega)) hle
  | case2 lo hi hlt mid hgt ih =>
    refine ih (by omega) hlo ?_
    intro j hj hjlt
    exact Nat.lt_of_lt_of_le (by omega) (hsorted mid j hj hjlt)
  | case3 lo hi hge =>
    constructor
    · exact hlo i
    · intro hle
      refine Nat.lt_of_not_le fun hnot => ?_
      have hlt := hbehind i (by omega) hi'
      omega

theorem countUpTo_le (table : LineTable) {offset lo hi : Nat} (hle : lo ≤ hi) :
    table.countUpTo offset lo hi ≤ hi := by
  fun_induction countUpTo table offset lo hi with
  | case1 lo hi hlt mid hstart ih => exact ih (by omega)
  | case2 lo hi hlt mid hstart ih =>
    have hmid := ih (by omega)
    omega
  | case3 lo hi hge => exact hle

section OfText

variable (s : Text) (offset : Nat)

theorem toList_starts : (ofText s).starts.toList = 0 :: offsetsAfterLineFeeds 0 s := rfl

theorem getD_starts {i : Nat} (hi : i < (ofText s).starts.size) :
    (ofText s).starts.getD i 0 = (ofText s).starts[i] := by
  rw [Array.getD_eq_getD_getElem?, Array.getElem?_eq_getElem hi, Option.getD_some]

theorem sorted_ofText : (ofText s).Sorted := by
  intro i j hij hj
  rcases Nat.lt_or_eq_of_le hij with hlt | rfl
  · rw [getD_starts s hj, getD_starts s (by omega)]
    have hpairwise := List.pairwise_iff_getElem.mp (pairwise_offsetsAfterLineFeeds 0 s)
    exact Nat.le_of_lt (hpairwise i j (Nat.lt_trans hlt hj) hj hlt)
  · exact Nat.le_refl _

theorem lt_countUpTo_ofText_iff (i : Nat) (hi : i < (ofText s).starts.size) :
    i < (ofText s).countUpTo offset 0 (ofText s).starts.size ↔
      (ofText s).starts.getD i 0 ≤ offset :=
  lt_countUpTo_iff (sorted_ofText s) (Nat.le_refl _) (by omega) (by omega) i hi

theorem countUpTo_ofText_pos : 0 < (ofText s).countUpTo offset 0 (ofText s).starts.size :=
  (lt_countUpTo_ofText_iff s offset 0 (Nat.succ_pos _)).mpr (Nat.zero_le _)

/-! ## Lines -/

/-- **A line is not behind that of an offset just where it starts at the offset or before.** -/
theorem le_lineOf_iff {line : Nat} (hline : line < (ofText s).starts.size) :
    line ≤ (ofText s).lineOf offset ↔ (ofText s).lineStart line ≤ offset := by
  have hpos := countUpTo_ofText_pos s offset
  rw [lineStart, ← lt_countUpTo_ofText_iff s offset line hline, lineOf]
  omega

theorem lineOf_lt_size : (ofText s).lineOf offset < (ofText s).starts.size := by
  have hle : (ofText s).countUpTo offset 0 (ofText s).starts.size ≤ (ofText s).starts.size :=
    countUpTo_le (ofText s) (Nat.zero_le _)
  have hpos : 0 < (ofText s).starts.size := Nat.succ_pos _
  rw [lineOf]
  omega

/-- **The line of an offset is the number of line feeds before it.** -/
theorem lineOf_eq_count : (ofText s).lineOf offset = (Text.takeBytes offset s).count '\n' := by
  have hle : (ofText s).countUpTo offset 0 (ofText s).starts.size ≤ (ofText s).starts.size :=
    countUpTo_le (ofText s) (Nat.zero_le _)
  have hcount : (ofText s).starts.toList.countP (· ≤ offset) =
      (ofText s).countUpTo offset 0 (ofText s).starts.size := by
    refine countP_eq_of_lt_iff hle ?_
    intro i hi
    rw [lt_countUpTo_ofText_iff s offset i hi, getD_starts s hi, decide_eq_true_iff]
    exact Iff.rfl
  have hfeeds := countP_offsetsAfterLineFeeds 0 offset s
  rw [Nat.zero_add] at hfeeds
  rw [toList_starts, List.countP_cons_of_pos (by simp), hfeeds] at hcount
  rw [lineOf, ← hcount]
  rfl

theorem lineOf_mono {offset offset' : Nat} (h : offset ≤ offset') :
    (ofText s).lineOf offset ≤ (ofText s).lineOf offset' := by
  have hstart := (le_lineOf_iff s offset (lineOf_lt_size s offset)).mp (Nat.le_refl _)
  exact (le_lineOf_iff s offset' (lineOf_lt_size s offset)).mpr (Nat.le_trans hstart h)

/-- The line of an offset starts behind all offsets on lines before. -/
theorem lt_startOfLineAt_of_lineOf_lt {offset offset' : Nat}
    (h : (ofText s).lineOf offset < (ofText s).lineOf offset') :
    offset < (ofText s).startOfLineAt offset' := by
  have hiff := le_lineOf_iff s offset (lineOf_lt_size s offset')
  rw [startOfLineAt]
  omega

end OfText

/-- The line of the offset behind `p`. -/
theorem lineOf_width (p q : Text) : (ofText (p ++ q)).lineOf (Text.width p) = p.count '\n' := by
  rw [lineOf_eq_count, Text.takeBytes_width_append]

/-- An offset within a character is on the line of that character. -/
theorem lineOf_within (p q : Text) {c : Char} {n : Nat} (h : n < c.utf8Size) :
    (ofText (p ++ c :: q)).lineOf (Text.width p + n) = p.count '\n' := by
  rw [lineOf_eq_count]
  congr 1
  induction p with
  | nil => simpa using Text.takeBytes_cons_of_lt h q
  | cons d p ih =>
    rw [Text.width_cons, List.cons_append, Text.takeBytes_cons (by omega)]
    rw [show d.utf8Size + Text.width p + n - d.utf8Size = Text.width p + n from by omega, ih]

/-- The last offset in a part of the text is on the line of the last character there. -/
theorem lineOf_last {s : Text} (hs : s ≠ []) (p q : Text) :
    (ofText (p ++ (s ++ q))).lineOf (Text.width p + Text.width s - 1) =
      (p ++ s.dropLast).count '\n' := by
  obtain ⟨front, d, rfl⟩ : ∃ front d, s = front ++ [d] :=
    ⟨s.dropLast, s.getLast hs, (List.dropLast_concat_getLast hs).symm⟩
  have hpos := d.utf8Size_pos
  have hoffset : Text.width p + Text.width (front ++ [d]) - 1 =
      Text.width (p ++ front) + (d.utf8Size - 1) := by
    rw [Text.width_append, Text.width_append, Text.width_cons, Text.width_nil]
    omega
  have htext : p ++ (front ++ [d] ++ q) = p ++ front ++ d :: q := by
    simp only [List.append_assoc, List.cons_append, List.nil_append]
  rw [hoffset, htext, lineOf_within _ _ (by omega), List.dropLast_concat]

/-- **Where a line starts:** behind `a`, which is empty or ends with a line feed, where no line feed is in
`b`. -/
theorem startOfLineAt_width {a b : Text} (ha : a = [] ∨ a.getLast? = some '\n') (hb : '\n' ∉ b)
    (q : Text) :
    (ofText (a ++ (b ++ q))).startOfLineAt (Text.width (a ++ b)) = Text.width a := by
  rw [startOfLineAt, ← List.append_assoc, lineOf_width, List.count_append,
    List.count_eq_zero_of_not_mem hb, Nat.add_zero, lineStart, Array.getD_eq_getD_getElem?,
    ← Array.getElem?_toList, toList_starts]
  rcases ha with rfl | hlast
  · rfl
  · obtain ⟨d, rfl⟩ := List.getLast?_eq_some_iff.mp hlast
    have hstart := getElem?_offsetsAfterLineFeeds 0 d (b ++ q)
    rw [List.count_append, List.count_singleton_self, List.getElem?_cons_succ,
      show d ++ ['\n'] ++ b ++ q = d ++ '\n' :: (b ++ q) from by simp, hstart, Option.getD_some,
      Text.width_append]
    simp [Text.width]
    rfl

theorem columnOf_width {a b : Text} (ha : a = [] ∨ a.getLast? = some '\n') (hb : '\n' ∉ b)
    (q : Text) : (ofText (a ++ (b ++ q))).columnOf (Text.width (a ++ b)) = Text.width b := by
  rw [columnOf, startOfLineAt_width ha hb, Text.width_append]
  omega

end LineTable

end Excerpt
