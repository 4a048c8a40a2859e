import Excerpt.Proofs.Source.BareTokens
import Excerpt.Proofs.Source.LineTable
import Excerpt.Proofs.Source.MovedLayout

/-!
# Excerpt — ranges without carriage returns

Taking away carriage returns moves the offsets of a text and keeps its lines, so the ranges of its declarations
are moved.

* **`LineTable.lineOf_bareOffset`**, **`startOfLineAt_bareOffset`**, **`columnOf_bareOffset`** — the line of an
  offset, and where the offset is on it.
* **`Layout.firstLine_bare`**, **`lastLine_bare`** — the lines of a token.
* **`Layout.isMoved_bare`** — the tokens of the text are moved.
-/

namespace Excerpt

namespace Text

/-- No carriage return stands right before the offset, so no end of a line goes across it. -/
def IsClear (s : Text) (n : Nat) : Prop :=
  ∃ p q, s = p ++ q ∧ width p = n ∧ p.getLast? ≠ some '\r'

theorem getLast?_bare {a : Text} (ha : a = [] ∨ a.getLast? = some '\n') :
    bare a = [] ∨ (bare a).getLast? = some '\n' := by
  rcases ha with rfl | hlast
  · exact Or.inl rfl
  · obtain ⟨front, rfl⟩ := List.getLast?_eq_some_iff.mp hlast
    refine Or.inr ?_
    rw [bare_append, bare_cons (by decide), bare_nil, List.getLast?_concat]

end Text

namespace LineTable

open Text (bare bareOffset)

variable {s : Text}

theorem lineOf_bareOffset (s : Text) (n : Nat) :
    (ofText (bare s)).lineOf (bareOffset s n) = (ofText s).lineOf n := by
  rw [lineOf_eq_count, lineOf_eq_count, Text.takeBytes_bareOffset, Text.count_bare]

/-- **The start of a line is moved to the start of a line.** -/
theorem startOfLineAt_bareOffset {n : Nat} (hn : Text.IsOffset s n) :
    (ofText (bare s)).startOfLineAt (bareOffset s n) = bareOffset s ((ofText s).startOfLineAt n) := by
  obtain ⟨p, ⟨q, rfl⟩, rfl⟩ := hn
  obtain ⟨a, b, rfl, ha, hb⟩ := Text.exists_last_line p
  have hfeed : '\n' ∉ bare b := fun hmem => hb (Text.mem_of_mem_bare hmem)
  rw [Text.bareOffset_width, List.append_assoc, startOfLineAt_width ha hb, Text.bareOffset_width,
    Text.bare_append, Text.bare_append, Text.bare_append, startOfLineAt_width (Text.getLast?_bare ha) hfeed]

/-- **An offset that is not within the end of a line keeps its column.** -/
theorem columnOf_bareOffset (h : Text.ReturnsEndLines s) {n : Nat} (hn : Text.IsClear s n) :
    (ofText (bare s)).columnOf (bareOffset s n) = (ofText s).columnOf n := by
  obtain ⟨p, q, rfl, rfl, hlast⟩ := hn
  obtain ⟨a, b, rfl, ha, hb⟩ := Text.exists_last_line p
  -- a carriage return on the line would be its last character, and the line goes up to the offset
  have hreturn : '\r' ∉ b := by
    intro hmem
    obtain ⟨front, back, rfl⟩ := List.append_of_mem hmem
    have hhead := h (a ++ front) (back ++ q) (by simp)
    cases back with
    | nil =>
      apply hlast
      simp
    | cons d back =>
      obtain rfl : d = '\n' := Option.some.inj hhead
      apply hb
      simp
  have hbare : bare b = b := Text.bare_of_notMem hreturn
  rw [Text.bareOffset_width, List.append_assoc, columnOf_width ha hb, Text.bare_append, Text.bare_append,
    Text.bare_append, hbare, columnOf_width (Text.getLast?_bare ha) hb]

theorem isClear_startOfLineAt {n : Nat} (hn : Text.IsOffset s n) :
    Text.IsClear s ((ofText s).startOfLineAt n) := by
  obtain ⟨p, ⟨q, rfl⟩, rfl⟩ := hn
  obtain ⟨a, b, rfl, ha, hb⟩ := Text.exists_last_line p
  refine ⟨a, b ++ q, List.append_assoc a b q, ?_, ?_⟩
  · rw [List.append_assoc, startOfLineAt_width ha hb]
  · rcases ha with rfl | hlast
    · simp
    · rw [hlast]
      decide

end LineTable

/-! ## Tokens in their places -/

section Token

variable {s : Text} {t : Token}

theorem exists_append_of_mem_tokenize (ht : t ∈ tokenize s) :
    ∃ p q, s = p ++ (t.text ++ q) ∧ t.start = Text.width p := by
  obtain ⟨p, q, hs, hstart⟩ := mem_tokensFrom ht
  rw [Nat.zero_add] at hstart
  exact ⟨p, q, hs, hstart⟩

theorem Token.stop_bare (ht : t ∈ tokenize s) : (t.bare s).stop = Text.bareOffset s t.stop := by
  obtain ⟨p, q, hs, hstart⟩ := exists_append_of_mem_tokenize ht
  show Text.bareOffset s t.start + Text.width (Text.bare t.text) = Text.bareOffset s (t.start + Text.width t.text)
  rw [hstart, hs, Text.bareOffset_width, Text.bareOffset_add]

/-- A token does not start within the end of a line. -/
theorem isClear_start_of_mem_tokenize (h : Text.ReturnsEndLines s) (ht : t ∈ tokenize s) :
    Text.IsClear s t.start := by
  obtain ⟨p, q, hs, hstart⟩ := exists_append_of_mem_tokenize ht
  obtain ⟨c, rest, htext, hc⟩ := (isTidy_of_mem_tokenize h ht).begins
  refine ⟨p, t.text ++ q, hs, hstart.symm, fun hlast => ?_⟩
  obtain ⟨front, rfl⟩ := List.getLast?_eq_some_iff.mp hlast
  have hhead := h front (t.text ++ q) (by rw [hs, List.append_assoc]; rfl)
  rw [htext] at hhead
  obtain rfl : c = '\n' := Option.some.inj hhead
  exact absurd hc (by decide)

/-- **Offsets keep their order to the starts of tokens.** -/
theorem bareOffset_le_start_iff (h : Text.ReturnsEndLines s) (ht : t ∈ tokenize s) {n : Nat}
    (hn : Text.IsOffset s n) : Text.bareOffset s n ≤ (t.bare s).start ↔ n ≤ t.start := by
  show Text.bareOffset s n ≤ Text.bareOffset s t.start ↔ n ≤ t.start
  constructor
  · intro hle
    apply Nat.le_of_not_lt
    intro hlt
    -- the first character of the token is left, and stands between the two
    obtain ⟨p, q, rfl, hstart⟩ := exists_append_of_mem_tokenize ht
    obtain ⟨c, rest, htext, hc⟩ := (isTidy_of_mem_tokenize h ht).begins
    have hreturn : c ≠ '\r' := by
      rintro rfl
      exact absurd hc (by decide)
    rw [hstart] at hle hlt
    rw [htext, List.cons_append] at hle hn
    have hkept := Text.bareOffset_lt hreturn hn hlt
    omega
  · exact Text.bareOffset_mono hn (mem_tokenize ht).1

end Token

/-! ## Lines of tokens -/

namespace Layout

open Text (bare bareOffset)

variable {s : Text}

theorem tokens_bare (h : Text.ReturnsEndLines s) :
    (ofText (bare s)).tokens = (ofText s).tokens.map (Token.bare s) := by
  show (tokenize (bare s)).toArray = (tokenize s).toArray.map (Token.bare s)
  rw [tokenize_bare h, List.map_toArray]

theorem mem_tokenize_of_getElem? {i : Nat} {t : Token} (h : (ofText s).tokens[i]? = some t) :
    t ∈ tokenize s := List.mem_toArray.mp (Array.mem_of_getElem? h)

theorem firstLine_bare (t : Token) :
    (ofText (bare s)).firstLine (t.bare s) = (ofText s).firstLine t :=
  LineTable.lineOf_bareOffset s t.start

theorem count_dropLast_bare {t : Text} (ht : '\n' ∈ t → t.getLast? ≠ some '\r') :
    (bare t).dropLast.count '\n' = t.dropLast.count '\n' := by
  rcases List.eq_nil_or_concat t with rfl | ⟨front, d, rfl⟩
  · rfl
  · rw [List.concat_eq_append] at ht ⊢
    rw [List.dropLast_concat]
    by_cases hd : d = '\r'
    · -- no line ends in a token that ends with a carriage return
      have hfeed : '\n' ∉ front ++ [d] := by
        intro hmem
        apply ht hmem
        rw [hd, List.getLast?_concat]
      rw [List.count_eq_zero_of_not_mem, List.count_eq_zero_of_not_mem]
      · exact fun hmem => hfeed (List.mem_append_left _ hmem)
      · intro hmem
        apply hfeed
        apply Text.mem_of_mem_bare
        exact (List.dropLast_prefix _).subset hmem
    · rw [Text.bare_append, Text.bare_cons hd, Text.bare_nil, List.dropLast_concat, Text.count_bare]

/-- **A token ends on the same line.** -/
theorem lastLine_bare (h : Text.ReturnsEndLines s) {t : Token} (ht : t ∈ tokenize s) :
    (ofText (bare s)).lastLine (t.bare s) = (ofText s).lastLine t := by
  have htidy := isTidy_of_mem_tokenize h ht
  obtain ⟨p, q, hs, hstart⟩ := exists_append_of_mem_tokenize ht
  obtain ⟨c, rest, htext, hc⟩ := htidy.begins
  have hne : t.text ≠ [] := by
    rw [htext]
    apply List.cons_ne_nil
  have hbare : bare t.text ≠ [] := by
    have hreturn : c ≠ '\r' := by
      rintro rfl
      exact absurd hc (by decide)
    rw [htext, Text.bare_cons hreturn]
    apply List.cons_ne_nil
  have hoffset : (t.bare s).start = Text.width (bare p) := by
    show bareOffset s t.start = _
    rw [hstart, hs, Text.bareOffset_width]
  have hparts : bare s = bare p ++ (bare t.text ++ bare q) := by
    rw [hs, Text.bare_append, Text.bare_append]
  have hlast : (ofText (bare s)).lastLine (t.bare s) = (bare p ++ (bare t.text).dropLast).count '\n' := by
    show (LineTable.ofText (bare s)).lineOf ((t.bare s).start + Text.width (bare t.text) - 1) = _
    rw [hoffset, hparts, LineTable.lineOf_last hbare]
  rw [hlast, List.count_append, Text.count_bare, count_dropLast_bare htidy.lineEnd, ← List.count_append]
  show _ = (LineTable.ofText s).lineOf (t.start + Text.width t.text - 1)
  rw [hstart, hs, LineTable.lineOf_last hne]

/-- **The tokens of a text are moved where carriage returns are taken away.** -/
theorem isMoved_bare (h : Text.ReturnsEndLines s) :
    IsMoved (ofText s) (ofText (bare s)) (bareOffset s) (Token.bare s) where
  tokens := tokens_bare h
  code := code_ofText_eq (tokens_bare h) fun _ => rfl
  kind _ := rfl
  start _ _ := rfl
  stop _ ht := Token.stop_bare (List.mem_toArray.mp ht)
  firstLine t _ := firstLine_bare t
  lastLine _ ht := lastLine_bare h (List.mem_toArray.mp ht)
  lineStart _ ht := LineTable.startOfLineAt_bareOffset (mem_tokenize (List.mem_toArray.mp ht)).1
  width := (Text.bareOffset_length s).symm

end Layout

end Excerpt
