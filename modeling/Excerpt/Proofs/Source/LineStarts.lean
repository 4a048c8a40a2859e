import Excerpt.Proofs.Source.LineTable
import Excerpt.Proofs.Text.Utf8
import Mathlib.Order.Bounds.Basic

/-!
# Excerpt — lines and offsets are a Galois connection

A line table is made from the characters of a text, and it is asked about byte offsets, which can lie inside of a
character or behind the end of the text. What it answers is told here by the bytes alone: a line starts at the first
byte and behind each line feed byte, and the line of an offset is the number of line feed bytes before it.

* **`Utf8.lineFeed_mem_utf8EncodeChar_iff`** — no byte of a longer character is a line feed.
* **`Text.StartsLineAt`**, **`LineTable.mem_starts_iff`** — where lines start, and that just these offsets are
  recorded.
* **`LineTable.lineOf_connection`** — a line starts at an offset or before just where it is not behind the line of
  the offset, and what follows from that.
-/

namespace Excerpt

/-! ## Line feeds among the bytes -/

namespace Utf8

/-- The byte that ends a line. -/
def lineFeed : UInt8 := 0x0A

theorem toNat_lineFeed : lineFeed.toNat = 0x0A := rfl

/-- **Only a line feed has the byte of one.** The bytes of a longer character are all above it. -/
theorem lineFeed_mem_utf8EncodeChar_iff {c : Char} : lineFeed ∈ String.utf8EncodeChar c ↔ c = '\n' := by
  constructor
  · intro hmem
    obtain ⟨b, hb, hfeed⟩ : ∃ b ∈ String.utf8EncodeChar c, b.toNat = 0x0A := ⟨_, hmem, toNat_lineFeed⟩
    have hvalid := toNat_bounds c
    unfold String.utf8EncodeChar at hb
    rw [show c.val.toNat = c.toNat from rfl] at hb
    dsimp only at hb
    have htrailing := toNat_trailing c.toNat
    split at hb
    · obtain rfl := List.mem_singleton.mp hb
      rw [toNat_ofNat (by omega)] at hfeed
      rw [← Char.ofNat_toNat c, hfeed]
    split at hb
    · have hfirst := toNat_ofNat (n := c.toNat / 64 % 0x20 + 0xc0) (by omega)
      simp only [List.mem_cons, List.not_mem_nil, or_false] at hb
      rcases hb with rfl | rfl <;> omega
    have hsecond := toNat_trailing (c.toNat / 64)
    split at hb
    · have hfirst := toNat_ofNat (n := c.toNat / 4096 % 0x10 + 0xe0) (by omega)
      simp only [List.mem_cons, List.not_mem_nil, or_false] at hb
      rcases hb with rfl | rfl | rfl <;> omega
    · have hfirst := toNat_ofNat (n := c.toNat / 262144 % 0x08 + 0xf0) (by omega)
      have hthird := toNat_trailing (c.toNat / 4096)
      simp only [List.mem_cons, List.not_mem_nil, or_false] at hb
      rcases hb with rfl | rfl | rfl | rfl <;> omega
  · rintro rfl
    decide

theorem encode_cons (c : Char) (s : Text) : encode (c :: s) = String.utf8EncodeChar c ++ encode s := rfl

theorem utf8EncodeChar_lineFeed : String.utf8EncodeChar '\n' = [lineFeed] := by decide

theorem count_lineFeed_of_ne {c : Char} (hc : c ≠ '\n') {bytes : List UInt8}
    (hbytes : bytes.Sublist (String.utf8EncodeChar c)) : bytes.count lineFeed = 0 :=
  List.count_eq_zero_of_not_mem fun hmem => hc (lineFeed_mem_utf8EncodeChar_iff.mp (hbytes.subset hmem))

/-- **As many line feed bytes stand before an offset as line feeds end there or before.** Induction along the text. -/
theorem count_take_encode (offset : Nat) (s : Text) :
    ((encode s).take offset).count lineFeed = (Text.takeBytes offset s).count '\n' := by
  induction s generalizing offset with
  | nil => cases offset <;> rfl
  | cons c s ih =>
    rw [encode_cons, List.take_append, String.length_utf8EncodeChar, List.count_append, ih]
    by_cases hfits : c.utf8Size ≤ offset
    · rw [Text.takeBytes_cons hfits, List.take_of_length_le (by rw [String.length_utf8EncodeChar]; exact hfits)]
      by_cases hfeed : c = '\n'
      · rw [hfeed, utf8EncodeChar_lineFeed, List.count_singleton_self, List.count_cons_self, Nat.add_comm]
      · rw [count_lineFeed_of_ne hfeed (List.Sublist.refl _), List.count_cons_of_ne hfeed, Nat.zero_add]
    · -- the offset is inside of the character, which is then longer than a line feed, or before it
      have hnone : ((String.utf8EncodeChar c).take offset).count lineFeed = 0 := by
        by_cases hfeed : c = '\n'
        · subst hfeed
          rw [show offset = 0 from Nat.lt_one_iff.mp (Nat.lt_of_not_le hfits)]
          rfl
        · exact count_lineFeed_of_ne hfeed (List.take_sublist _ _)
      rw [Text.takeBytes_cons_of_lt (by omega), hnone, Nat.sub_eq_zero_of_le (by omega)]
      cases s <;> rfl

end Utf8

/-- **A line of the text starts at the offset:** at its first byte, or right behind a line feed byte. -/
def Text.StartsLineAt (s : Text) (offset : Nat) : Prop :=
  offset = 0 ∨ ∃ i, (Utf8.encode s)[i]? = some Utf8.lineFeed ∧ offset = i + 1

/-! ## The recorded starts -/

/-- Where the line feed bytes of a text are, from its first character on. -/
theorem Utf8.getElem?_encode_cons_iff {c : Char} {s : Text} {i : Nat} :
    (encode (c :: s))[i]? = some lineFeed ↔
      c = '\n' ∧ i = 0 ∨ ∃ j, (encode s)[j]? = some lineFeed ∧ i = c.utf8Size + j := by
  rw [encode_cons, List.getElem?_append, String.length_utf8EncodeChar]
  constructor
  · intro hget
    split at hget
    · next hlt =>
      obtain rfl := lineFeed_mem_utf8EncodeChar_iff.mp (List.mem_of_getElem? hget)
      exact Or.inl ⟨rfl, Nat.lt_one_iff.mp hlt⟩
    · exact Or.inr ⟨_, hget, by omega⟩
  · rintro (⟨rfl, rfl⟩ | ⟨j, hget, rfl⟩)
    · rfl
    · rw [if_neg (by omega), Nat.add_sub_cancel_left]
      exact hget

/-- Induction along the text. -/
theorem mem_offsetsAfterLineFeeds_iff {offset n : Nat} {s : Text} :
    n ∈ offsetsAfterLineFeeds offset s ↔
      ∃ i, (Utf8.encode s)[i]? = some Utf8.lineFeed ∧ n = offset + (i + 1) := by
  induction s generalizing offset with
  | nil => simp [offsetsAfterLineFeeds, Utf8.encode]
  | cons c s ih =>
    have hrest : n ∈ offsetsAfterLineFeeds (offset + c.utf8Size) s ↔
        ∃ i, (∃ j, (Utf8.encode s)[j]? = some Utf8.lineFeed ∧ i = c.utf8Size + j) ∧ n = offset + (i + 1) := by
      rw [ih]
      constructor
      · rintro ⟨j, hget, rfl⟩
        exact ⟨_, ⟨j, hget, rfl⟩, by omega⟩
      · rintro ⟨_, ⟨j, hget, rfl⟩, rfl⟩
        exact ⟨j, hget, by omega⟩
    simp only [Utf8.getElem?_encode_cons_iff, or_and_right, exists_or]
    rw [offsetsAfterLineFeeds]
    split
    · next hfeed =>
      subst hfeed
      rw [List.mem_cons, hrest, show '\n'.utf8Size = 1 from rfl]
      simp
    · next hfeed =>
      rw [hrest]
      simp [hfeed]

/-- Induction along the text. -/
theorem length_offsetsAfterLineFeeds (offset : Nat) (s : Text) :
    (offsetsAfterLineFeeds offset s).length = (Utf8.encode s).count Utf8.lineFeed := by
  induction s generalizing offset with
  | nil => rfl
  | cons c s ih =>
    rw [offsetsAfterLineFeeds, Utf8.encode_cons, List.count_append]
    split
    · next hfeed =>
      rw [List.length_cons, ih, hfeed, Utf8.utf8EncodeChar_lineFeed, List.count_singleton_self, Nat.add_comm]
    · next hfeed => rw [ih, Utf8.count_lineFeed_of_ne hfeed (List.Sublist.refl _), Nat.zero_add]

namespace LineTable

section OfText

variable (s : Text)

/-- **The recorded starts are those of the lines.** -/
theorem mem_starts_iff {n : Nat} : n ∈ (ofText s).starts ↔ s.StartsLineAt n := by
  rw [← Array.mem_toList_iff, toList_starts, List.mem_cons, mem_offsetsAfterLineFeeds_iff]
  simp only [Nat.zero_add]
  rfl

/-- There is one line more than there are line feed bytes. -/
theorem size_starts : (ofText s).starts.size = (Utf8.encode s).count Utf8.lineFeed + 1 := by
  rw [← length_offsetsAfterLineFeeds 0 s]
  rfl

/-- **Where the line of an offset starts:** at the last place up to the offset where a line starts. -/
theorem isGreatest_startOfLineAt (offset : Nat) :
    IsGreatest {n | s.StartsLineAt n ∧ n ≤ offset} ((ofText s).startOfLineAt offset) := by
  have hline := lineOf_lt_size s offset
  constructor
  · refine ⟨?_, startOfLineAt_le s offset⟩
    rw [← mem_starts_iff, startOfLineAt, lineStart, getD_starts s hline]
    exact Array.getElem_mem hline
  · rintro n ⟨hstart, hle⟩
    obtain ⟨line, hlt, rfl⟩ := Array.mem_iff_getElem.mp ((mem_starts_iff s).mpr hstart)
    rw [← getD_starts s hlt] at hle ⊢
    -- the line that starts there is not behind that of the offset, so it does not start behind it either
    have hbefore : line ≤ (ofText s).lineOf offset := (le_lineOf_iff s offset hlt).mpr hle
    exact sorted_ofText s line _ hbefore hline

/-- **Lines and offsets are a Galois connection.** The line of an offset is the number of line feed bytes before it,
also where the offset is behind the end of the text; it starts at the last place up to the offset where a line
starts, from which the column is counted; it does not come before the line of an earlier offset; and a line that
there is starts at an offset or before just where it is not behind the line of the offset. -/
theorem lineOf_connection :
    (∀ offset, (ofText s).lineOf offset = ((Utf8.encode s).take offset).count Utf8.lineFeed) ∧
      (∀ offset, IsGreatest {n | s.StartsLineAt n ∧ n ≤ offset} ((ofText s).startOfLineAt offset)) ∧
      (∀ offset, (ofText s).startOfLineAt offset + (ofText s).columnOf offset = offset) ∧
      Monotone (ofText s).lineOf ∧
      ∀ line ≤ (Utf8.encode s).count Utf8.lineFeed, ∀ offset,
        (ofText s).lineStart line ≤ offset ↔ line ≤ (ofText s).lineOf offset := by
  refine ⟨fun offset => ?_, isGreatest_startOfLineAt s, fun offset => ?_, fun _ _ => lineOf_mono s, ?_⟩
  · rw [lineOf_eq_count, Utf8.count_take_encode]
  · exact Nat.add_sub_cancel' (startOfLineAt_le s offset)
  · intro line hline offset
    have hlt : line < (ofText s).starts.size := by
      rw [size_starts]
      exact Nat.lt_succ_of_le hline
    exact (le_lineOf_iff s offset hlt).symm

end OfText

/-- A text of four lines, the second and the last one empty, with a character of two bytes. -/
def umlautLines : Text := "ä\n\nb\n".toList

/-- The last line starts behind all offsets on the line before it, and an offset behind the end is on it. -/
theorem lineOf_connection_umlautLines :
    3 ≤ (Utf8.encode umlautLines).count Utf8.lineFeed ∧
      ((ofText umlautLines).lineStart 3 ≤ 5 ↔ 3 ≤ (ofText umlautLines).lineOf 5) ∧
      ((ofText umlautLines).lineStart 3 ≤ 100 ↔ 3 ≤ (ofText umlautLines).lineOf 100) ∧
      (ofText umlautLines).lineStart 3 = 6 ∧ (ofText umlautLines).lineOf 5 = 2 ∧
      (ofText umlautLines).lineOf 100 = 3 := by
  have hline : 3 ≤ (Utf8.encode umlautLines).count Utf8.lineFeed := by decide
  obtain ⟨hcount, -, -, -, hconnection⟩ := lineOf_connection umlautLines
  refine ⟨hline, hconnection 3 hline 5, hconnection 3 hline 100, rfl, ?_, ?_⟩
  · rw [hcount]
    decide
  · rw [hcount]
    decide

end LineTable

end Excerpt
