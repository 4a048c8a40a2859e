import Excerpt.Source.File

/-!
# Excerpt — the offsets of tokens and lines

Positions in a text are byte offsets. A slice between two of them is what its author sees there only if
neither lies inside of a character, and the first one is not behind the second.

* **`Text.IsOffset`** — an offset in the text that no character goes across.
* **`Text.slice_append`** — the slice between the ends of two starts of a text.
* **`mem_tokenize`** — each token is the slice between its start and its end.
* **`pairwise_tokenize`** — a token ends where the next one starts, or before.
* **`LineTable.startOfLineAt_le`**, **`LineTable.isOffset_startOfLineAt`** — the start of the line on
  which an offset lies is an offset that is not behind it.
-/

namespace Excerpt

namespace Text

/-- No character of the text goes across the offset, and it is not behind the end of the text. -/
def IsOffset (s : Text) (n : Nat) : Prop := ∃ p, p <+: s ∧ width p = n

theorem isOffset_zero (s : Text) : IsOffset s 0 := ⟨[], List.nil_prefix, rfl⟩

theorem IsOffset.le_width {s : Text} {n : Nat} (h : IsOffset s n) : n ≤ width s := by
  obtain ⟨p, ⟨rest, rfl⟩, rfl⟩ := h
  rw [width_append]
  exact Nat.le_add_right _ _

/-- What stands between the end of a start of the text and an offset that is not before it. Induction along
the start. -/
theorem IsOffset.exists_append {p q : Text} {n : Nat} (h : IsOffset (p ++ q) n) (hle : width p ≤ n) :
    ∃ t r, q = t ++ r ∧ width p + width t = n := by
  obtain ⟨front, hfront, rfl⟩ := h
  induction p generalizing front with
  | nil =>
    obtain ⟨r, rfl⟩ := hfront
    exact ⟨front, r, rfl, Nat.zero_add _⟩
  | cons c p ih =>
    have hpos := c.utf8Size_pos
    cases front with
    | nil =>
      rw [width_cons, width_nil] at hle
      omega
    | cons d front =>
      obtain ⟨rfl, hrest⟩ := List.cons_prefix_cons.mp hfront
      rw [width_cons, width_cons] at hle
      obtain ⟨t, r, hq, hwidth⟩ := ih front hrest (by omega)
      refine ⟨t, r, hq, ?_⟩
      rw [width_cons, width_cons, ← hwidth, Nat.add_assoc]

/-! ## Slices -/

theorem dropBytes_cons {c : Char} {n : Nat} (h : c.utf8Size ≤ n) (s : Text) :
    dropBytes n (c :: s) = dropBytes (n - c.utf8Size) s := by
  have hpos := c.utf8Size_pos
  cases n with
  | zero => omega
  | succ n => rfl

theorem takeBytes_cons {c : Char} {n : Nat} (h : c.utf8Size ≤ n) (s : Text) :
    takeBytes n (c :: s) = c :: takeBytes (n - c.utf8Size) s := by
  have hpos := c.utf8Size_pos
  cases n with
  | zero => omega
  | succ n => rw [takeBytes, if_pos h]

theorem dropBytes_width_append (p s : Text) : dropBytes (width p) (p ++ s) = s := by
  induction p with
  | nil => cases s <;> rfl
  | cons c p ih =>
    rw [width_cons, List.cons_append, dropBytes_cons (by omega)]
    rw [show c.utf8Size + width p - c.utf8Size = width p from by omega, ih]

theorem takeBytes_width_append (p s : Text) : takeBytes (width p) (p ++ s) = p := by
  induction p with
  | nil => cases s <;> rfl
  | cons c p ih =>
    rw [width_cons, List.cons_append, takeBytes_cons (by omega)]
    rw [show c.utf8Size + width p - c.utf8Size = width p from by omega, ih]

/-- **A slice is what stands between its ends.** -/
theorem slice_append (p m q : Text) :
    slice (p ++ (m ++ q)) (width p) (width p + width m) = m := by
  unfold slice
  rw [dropBytes_width_append, show width p + width m - width p = width m from by omega,
    takeBytes_width_append]

end Text

/-! ## Tokens -/

/-- Where a token of a text that starts at `offset` stands in it. Induction along the tokens. -/
theorem mem_tokensFrom {offset : Nat} {s : Text} {t : Token} (h : t ∈ tokensFrom offset s) :
    ∃ p q, s = p ++ (t.text ++ q) ∧ t.start = offset + Text.width p := by
  fun_induction tokensFrom offset s with
  | case1 => simp at h
  | case2 offset c rest _ ih =>
    obtain ⟨p, q, hs, hstart⟩ := ih h
    refine ⟨c :: p, q, by rw [hs]; rfl, ?_⟩
    rw [hstart, Text.width_cons]
    omega
  | case3 offset c rest _ kind n hlex text ih =>
    have htext : text ++ rest.drop n = c :: rest := by simp [text]
    rcases List.mem_cons.mp h with rfl | hmem
    · exact ⟨[], rest.drop n, htext.symm, rfl⟩
    · obtain ⟨p, q, hs, hstart⟩ := ih hmem
      refine ⟨text ++ p, q, ?_, ?_⟩
      · rw [← htext, hs, List.append_assoc]
      · rw [hstart, Text.width_append]
        omega

/-- **Each token is the slice between its start and its end**, which are offsets of the text. -/
theorem mem_tokenize {s : Text} {t : Token} (h : t ∈ tokenize s) :
    Text.IsOffset s t.start ∧ Text.IsOffset s t.stop ∧ Text.slice s t.start t.stop = t.text := by
  obtain ⟨p, q, hs, hstart⟩ := mem_tokensFrom h
  rw [Nat.zero_add] at hstart
  have hstop : t.stop = Text.width p + Text.width t.text := by rw [Token.stop, hstart]
  refine ⟨⟨p, ⟨t.text ++ q, hs.symm⟩, hstart.symm⟩, ⟨p ++ t.text, ⟨q, ?_⟩, ?_⟩, ?_⟩
  · rw [hs, List.append_assoc]
  · rw [Text.width_append, hstop]
  · rw [hstart, hstop, hs, Text.slice_append]

theorem Token.start_le_stop (t : Token) : t.start ≤ t.stop := Nat.le_add_right _ _

/-- **No token starts before an earlier one ends.** -/
theorem pairwise_tokensFrom (offset : Nat) (s : Text) :
    (tokensFrom offset s).Pairwise fun t u => t.stop ≤ u.start := by
  fun_induction tokensFrom offset s with
  | case1 => exact .nil
  | case2 offset c rest _ ih => exact ih
  | case3 offset c rest _ kind n hlex text ih =>
    refine .cons ?_ ih
    intro u hu
    obtain ⟨p, q, -, hstart⟩ := mem_tokensFrom hu
    rw [hstart]
    exact Nat.le_add_right _ _

theorem pairwise_tokenize (s : Text) :
    (tokenize s).Pairwise fun t u => t.stop ≤ u.start := pairwise_tokensFrom 0 s

/-! ## Lines -/

/-- A line of a text that starts at `offset` starts at the end of a start of the text. -/
theorem mem_offsetsAfterLineFeeds {offset n : Nat} {s : Text}
    (h : n ∈ offsetsAfterLineFeeds offset s) : ∃ p, p <+: s ∧ n = offset + Text.width p := by
  induction s generalizing offset with
  | nil => simp [offsetsAfterLineFeeds] at h
  | cons c s ih =>
    have hrest : n ∈ offsetsAfterLineFeeds (offset + c.utf8Size) s →
        ∃ p, p <+: c :: s ∧ n = offset + Text.width p := by
      intro hmem
      obtain ⟨p, hp, rfl⟩ := ih hmem
      refine ⟨c :: p, List.cons_prefix_cons.mpr ⟨rfl, hp⟩, ?_⟩
      rw [Text.width_cons]
      omega
    unfold offsetsAfterLineFeeds at h
    dsimp only at h
    split at h
    · rcases List.mem_cons.mp h with rfl | hmem
      · exact ⟨[c], List.cons_prefix_cons.mpr ⟨rfl, List.nil_prefix⟩, by simp⟩
      · exact hrest hmem
    · exact hrest h

namespace LineTable

/-- The invariant of the search: the starts that are known to be among the first ones are not behind
the offset. -/
theorem countUpTo_spec (table : LineTable) (offset lo hi : Nat)
    (h : lo = 0 ∨ table.starts.getD (lo - 1) 0 ≤ offset) :
    table.countUpTo offset lo hi = 0 ∨
      table.starts.getD (table.countUpTo offset lo hi - 1) 0 ≤ offset := by
  fun_induction countUpTo table offset lo hi with
  | case1 lo hi hlt mid hle ih => exact ih (Or.inr (by simpa using hle))
  | case2 lo hi hlt mid hle ih => exact ih h
  | case3 lo hi hlt => exact h

theorem starts_zero (s : Text) : (ofText s).starts.getD 0 0 = 0 := rfl

/-- **A line does not start behind an offset on it.** -/
theorem startOfLineAt_le (s : Text) (offset : Nat) : (ofText s).startOfLineAt offset ≤ offset := by
  unfold startOfLineAt lineStart lineOf
  rcases countUpTo_spec (ofText s) offset 0 (ofText s).starts.size (Or.inl rfl) with hzero | hle
  · rw [hzero, starts_zero]
    exact Nat.zero_le offset
  · exact hle

/-- **Lines start at offsets of the text.** -/
theorem isOffset_startOfLineAt (s : Text) (offset : Nat) :
    Text.IsOffset s ((ofText s).startOfLineAt offset) := by
  unfold startOfLineAt lineStart
  generalize (ofText s).lineOf offset = line
  by_cases hline : line < (ofText s).starts.size
  · rw [Array.getD_eq_getD_getElem?, Array.getElem?_eq_getElem hline, Option.getD_some]
    have hmem : (ofText s).starts[line] ∈ 0 :: offsetsAfterLineFeeds 0 s := by
      rw [show 0 :: offsetsAfterLineFeeds 0 s = (ofText s).starts.toList from rfl]
      exact Array.getElem_mem_toList hline
    rcases List.mem_cons.mp hmem with hzero | hmem
    · rw [hzero]
      exact Text.isOffset_zero s
    · obtain ⟨p, hp, hn⟩ := mem_offsetsAfterLineFeeds hmem
      exact ⟨p, hp, by omega⟩
  · rw [Array.getD_eq_getD_getElem?, Array.getElem?_eq_none (by omega)]
    exact Text.isOffset_zero s

end LineTable

end Excerpt
