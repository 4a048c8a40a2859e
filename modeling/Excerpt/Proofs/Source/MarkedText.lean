import Excerpt.Proofs.Source.Bodies
import Excerpt.Proofs.Source.LineTable
import Excerpt.Proofs.Source.LineTokens
import Excerpt.Proofs.Source.MovedLayout
import Excerpt.Proofs.Source.Places
import Mathlib.Data.List.Basic

/-!
# Excerpt — a text behind a byte order mark

A byte order mark at the start of a text belongs to no token. All tokens are moved behind it and stay on their lines,
but the first line still starts where the text does, in front of the mark.

* **`LineTable.lineOf_unmarked`**, **`startOfLineAt_unmarked`** — the line of an offset, and where it starts.
* **`LineTable.startOfLineAt_mark_cases`**, **`columnOf_mark`** — the first line starts in front of the mark, so what
  stands on it has a column more for each byte of the mark.
* **`Layout.isMoved_unmarked`** — the tokens are moved.
* **`SourceFile.parse?_unmarked`**, **`SourceFile.relocation_unmarked`** — so are the declarations and the events.
* **`SourceFile.start_of_isPlace`** — an excerpt begins in front of the mark, or behind a character that follows it.
-/

namespace Excerpt

namespace Text

/-- The byte order mark. -/
def mark : Char := '\uFEFF'

/-- The offset in the text of an offset behind the mark. -/
def unmarked (n : Nat) : Nat := n - 3

theorem utf8Size_mark : mark.utf8Size = 3 := by decide

theorem width_cons_mark (s : Text) : width (mark :: s) = width s + 3 := by
  rw [width_cons, utf8Size_mark, Nat.add_comm]

theorem count_takeBytes_mark (s : Text) (n : Nat) :
    (takeBytes n (mark :: s)).count '\n' = (takeBytes (unmarked n) s).count '\n' := by
  by_cases hfits : mark.utf8Size ≤ n
  · rw [takeBytes_cons hfits, List.count_cons_of_ne (by decide), utf8Size_mark, unmarked]
  · rw [utf8Size_mark] at hfits
    have hzero : unmarked n = 0 := by
      unfold unmarked
      omega
    rw [takeBytes_cons_of_lt (by rw [utf8Size_mark]; omega), hzero]
    cases s <;> rfl

/-- An offset behind the mark is one of the text. -/
theorem IsOffset.exists_of_mark {s : Text} {n : Nat} (h : IsOffset (mark :: s) n) (hn : 3 ≤ n) :
    ∃ p q, s = p ++ q ∧ n = width p + 3 := by
  have hsplit : IsOffset ([mark] ++ s) n := h
  obtain ⟨p, q, rfl, hwidth⟩ := hsplit.exists_append (by rwa [width_cons_mark])
  refine ⟨p, q, rfl, ?_⟩
  rw [← hwidth, width_cons_mark, width_nil]
  omega

end Text

open Text (mark unmarked)

/-! ## Lines -/

namespace LineTable

theorem lineOf_unmarked (s : Text) (n : Nat) :
    (ofText s).lineOf (unmarked n) = (ofText (mark :: s)).lineOf n := by
  rw [lineOf_eq_count, lineOf_eq_count, Text.count_takeBytes_mark]

/-- **Where lines start:** the first one with the text, in front of the mark, and each other one where it did. -/
theorem startOfLineAt_mark_cases {s : Text} {n : Nat} (hn : Text.IsOffset (mark :: s) n) (hle : 3 ≤ n) :
    ((ofText s).lineOf (unmarked n) = 0 ∧ (ofText (mark :: s)).startOfLineAt n = 0 ∧
        (ofText s).startOfLineAt (unmarked n) = 0) ∨
      ((ofText s).lineOf (unmarked n) ≠ 0 ∧ 0 < (ofText s).startOfLineAt (unmarked n) ∧
        (ofText (mark :: s)).startOfLineAt n = (ofText s).startOfLineAt (unmarked n) + 3) := by
  obtain ⟨p, q, rfl, rfl⟩ := hn.exists_of_mark hle
  have hback : unmarked (Text.width p + 3) = Text.width p := Nat.add_sub_cancel _ _
  obtain ⟨a, b, rfl, ha, hb⟩ := Text.exists_last_line p
  rw [hback, List.append_assoc, ← List.append_assoc a, lineOf_width, List.append_assoc, startOfLineAt_width ha hb]
  rcases ha with rfl | hlast
  · have hmark : '\n' ∉ mark :: b := List.not_mem_cons_of_ne_of_not_mem (by decide) hb
    have hstart := startOfLineAt_width (Or.inl rfl) hmark q
    rw [List.nil_append, List.nil_append, Text.width_cons_mark] at hstart
    exact Or.inl ⟨List.count_eq_zero_of_not_mem hb, hstart, rfl⟩
  · have hne : a ≠ [] := by
      rintro rfl
      cases hlast
    have hmark : (mark :: a).getLast? = some '\n' := by rw [List.getLast?_cons_of_ne_nil hne, hlast]
    have hstart := startOfLineAt_width (Or.inr hmark) hb q
    rw [List.cons_append, List.cons_append, Text.width_cons_mark, Text.width_cons_mark] at hstart
    refine Or.inr ⟨?_, ?_, hstart⟩
    · rw [List.count_append]
      have hpos := List.count_pos_iff.mpr (List.mem_of_getLast? hlast)
      omega
    · obtain ⟨c, rest, rfl⟩ := List.exists_cons_of_ne_nil hne
      have hpos := c.utf8Size_pos
      rw [Text.width_cons]
      omega

theorem startOfLineAt_unmarked {s : Text} {n : Nat} (hn : Text.IsOffset (mark :: s) n) (hle : 3 ≤ n) :
    (ofText s).startOfLineAt (unmarked n) = unmarked ((ofText (mark :: s)).startOfLineAt n) := by
  rcases startOfLineAt_mark_cases hn hle with ⟨-, hmarked, hstart⟩ | ⟨-, -, hmarked⟩
  · rw [hmarked, hstart]
    rfl
  · rw [hmarked]
    exact (Nat.add_sub_cancel _ _).symm

/-- **On the first line columns are counted from the mark on.** -/
theorem columnOf_mark {s : Text} {n : Nat} (hn : Text.IsOffset (mark :: s) n) (hle : 3 ≤ n) :
    (ofText (mark :: s)).columnOf n =
      (ofText s).columnOf (unmarked n) + if (ofText s).lineOf (unmarked n) = 0 then 3 else 0 := by
  have hbehind := startOfLineAt_le s (unmarked n)
  unfold columnOf
  rcases startOfLineAt_mark_cases hn hle with ⟨hline, hmarked, hstart⟩ | ⟨hline, -, hmarked⟩
  · rw [hmarked, hstart, if_pos hline]
    unfold unmarked
    omega
  · rw [hmarked, if_neg hline]
    unfold unmarked at *
    omega

end LineTable

/-! ## Tokens -/

/-- The token in front of which no mark stands. -/
def Token.unmarked (t : Token) : Token := { t with start := Text.unmarked t.start }

theorem Token.unmarked_shifted (t : Token) : (t.shifted 3).unmarked = t := by
  show { t with start := t.start + 3 - 3 } = t
  rw [Nat.add_sub_cancel]

theorem tokenize_mark (s : Text) : tokenize (mark :: s) = tokensFrom 3 s := by
  unfold tokenize
  rw [tokensFrom, if_pos (by decide), Text.utf8Size_mark]

/-- **No token holds the mark.** -/
theorem tokenize_unmarked (s : Text) : tokenize s = (tokenize (mark :: s)).map Token.unmarked := by
  have hshifted : tokensFrom 3 s = (tokensFrom 0 s).map (Token.shifted 3) := tokensFrom_add 0 3 s
  rw [tokenize_mark, hshifted, List.map_map, tokenize]
  exact (List.map_id'' Token.unmarked_shifted _).symm

theorem le_start_of_mem_tokenize_mark {s : Text} {t : Token} (ht : t ∈ tokenize (mark :: s)) : 3 ≤ t.start := by
  rw [tokenize_mark] at ht
  obtain ⟨p, q, -, hstart⟩ := mem_tokensFrom ht
  omega

theorem Token.stop_unmarked {t : Token} (h : 3 ≤ t.start) : t.unmarked.stop = Text.unmarked t.stop := by
  show t.start - 3 + Text.width t.text = t.start + Text.width t.text - 3
  omega

namespace Layout

/-- **The tokens of a text are moved behind the mark.** -/
theorem isMoved_unmarked (s : Text) :
    IsMoved (ofText (mark :: s)) (ofText s) unmarked Token.unmarked := by
  have htokens : (ofText s).tokens = (ofText (mark :: s)).tokens.map Token.unmarked := by
    show (tokenize s).toArray = (tokenize (mark :: s)).toArray.map Token.unmarked
    rw [tokenize_unmarked, List.map_toArray]
  have hle : ∀ t ∈ (ofText (mark :: s)).tokens, 3 ≤ t.start := fun t ht =>
    le_start_of_mem_tokenize_mark (List.mem_toArray.mp ht)
  refine ⟨htokens, code_ofText_eq htokens fun _ => rfl, fun _ => rfl, fun _ _ => rfl, ?_, ?_, ?_, ?_, ?_⟩
  · intro t ht
    exact Token.stop_unmarked (hle t ht)
  · intro t _
    exact LineTable.lineOf_unmarked s t.start
  · intro t ht
    show (LineTable.ofText s).lineOf (t.unmarked.stop - 1) = (LineTable.ofText (mark :: s)).lineOf (t.stop - 1)
    rw [Token.stop_unmarked (hle t ht), ← LineTable.lineOf_unmarked, unmarked, unmarked, Nat.sub_right_comm]
  · intro t ht
    exact LineTable.startOfLineAt_unmarked (mem_tokenize (List.mem_toArray.mp ht)).1 (hle t ht)
  · show Text.width s = unmarked (Text.width (mark :: s))
    rw [Text.width_cons_mark]
    exact (Nat.add_sub_cancel _ _).symm

end Layout

/-! ## Declarations and markers -/

theorem codeOf_unmarked (s : Text) : codeOf (tokenize s) = codeOf (tokenize (mark :: s)) := by
  unfold codeOf
  rw [tokenize_unmarked, List.filter_map, List.map_map]
  rfl

/-- A token of the same text at another place is the same marker there. -/
theorem Event.ofToken?_unmarked {t : Token} (h : 3 ≤ t.start) (δ : Declaration → Declaration) :
    ofToken? t.unmarked = (ofToken? t).map (Event.moved unmarked δ) := by
  have hstop := Token.stop_unmarked h
  unfold ofToken?
  rw [show t.unmarked.kind = t.kind from rfl]
  split
  · unfold ofDirective?
    rw [hstop, show t.unmarked.text = t.text from rfl, show t.unmarked.start = unmarked t.start from rfl]
    dsimp only
    split
    · rfl
    · split <;> rfl
  · unfold ofComment?
    rw [hstop, show t.unmarked.text = t.text from rfl, show t.unmarked.start = unmarked t.start from rfl]
    cases Text.dropPrefixIgnoreCase? commentBegin t.text with
    | some label => rfl
    | none =>
      dsimp only
      split <;> rfl
  · rfl

namespace SourceFile

/-- The source file of the text in front of which no mark stands. -/
def withoutMark (s : Text) (file : SourceFile) : SourceFile :=
  ⟨Layout.ofText s, file.declarations.map (Declaration.moved unmarked)⟩

/-- **The declarations of a text are moved behind the mark.** -/
theorem parse?_unmarked (s : Text) : parse? s = (parse? (mark :: s)).map (withoutMark s) := by
  show (Outline.read? (codeOf (tokenize s))).map _ =
    ((Outline.read? (codeOf (tokenize (mark :: s)))).map _).map _
  rw [codeOf_unmarked, Option.map_map]
  congr 1
  funext nodes
  have hdeclaration : (Layout.ofText s).declaration =
      Declaration.moved unmarked ∘ (Layout.ofText (mark :: s)).declaration :=
    funext (Layout.isMoved_unmarked s).declaration
  show SourceFile.mk _ _ = SourceFile.mk _ _
  rw [hdeclaration, List.map_toArray, List.map_map]

variable {s : Text} {file : SourceFile}

theorem le_start_of_mem_tokens (h : parse? (mark :: s) = some file) {t : Token} (ht : t ∈ file.layout.tokens) :
    3 ≤ t.start := by
  rw [layout_of_parse? h] at ht
  exact le_start_of_mem_tokenize_mark (List.mem_toArray.mp ht)

theorem le_anchor_of_mem_declarations (h : parse? (mark :: s) = some file) {d : Declaration}
    (hd : d ∈ file.declarations) : 3 ≤ d.anchor := by
  obtain ⟨t, ht, -, hanchor⟩ := exists_token_of_mem_declarations h hd
  rw [hanchor]
  exact le_start_of_mem_tokens h ht

theorem unmarked_le_unmarked_iff {m n : Nat} (hn : 3 ≤ n) : unmarked m ≤ unmarked n ↔ m ≤ n := by
  unfold unmarked
  omega

/-- Behind the start of a range, the first token of code is the same. -/
theorem firstCodeOffset_withoutMark (h : parse? (mark :: s) = some file) (span : Span) :
    (file.withoutMark s).firstCodeOffset (span.moved unmarked) = unmarked (file.firstCodeOffset span) := by
  have htokens : (Layout.ofText s).tokens = file.layout.tokens.map Token.unmarked := by
    rw [layout_of_parse? h]
    exact (Layout.isMoved_unmarked s).tokens
  have hfind : (Layout.ofText s).tokens.toList.find?
        (fun t => (span.moved unmarked).start ≤ t.start && ! t.kind.isTrivia) =
      (file.layout.tokens.toList.find?
        fun t => span.start ≤ t.start && ! t.kind.isTrivia).map Token.unmarked := by
    rw [htokens, Array.toList_map, List.find?_map, ← List.head?_filter, ← List.head?_filter]
    congr 2
    apply List.filter_congr
    intro t ht
    show (decide (unmarked span.start ≤ unmarked t.start) && ! t.kind.isTrivia) = _
    rw [decide_eq_decide.mpr (unmarked_le_unmarked_iff (le_start_of_mem_tokens h (Array.mem_toList_iff.mp ht)))]
  unfold firstCodeOffset withoutMark
  rw [hfind]
  cases file.layout.tokens.toList.find? _ <;> rfl

/-- **The events of a text are moved behind the mark.** -/
theorem relocation_unmarked (h : parse? (mark :: s) = some file) :
    Relocation file (file.withoutMark s) unmarked (Declaration.moved unmarked) where
  markers := by
    have htokens : (file.withoutMark s).layout.tokens = file.layout.tokens.map Token.unmarked := by
      rw [layout_of_parse? h]
      exact (Layout.isMoved_unmarked s).tokens
    rw [htokens, Array.toList_map, List.filterMap_map, List.map_filterMap]
    apply List.filterMap_congr
    intro t ht
    exact Event.ofToken?_unmarked (le_start_of_mem_tokens h (Array.mem_toList_iff.mp ht)) _
  declarations := rfl
  names d := ⟨Iff.rfl, fun _ => rfl, rfl, Option.isSome_map⟩
  order e _ e' he' := by
    obtain ⟨t, ht, hoffset⟩ := exists_token_of_mem_events h he'
    rw [hoffset]
    exact unmarked_le_unmarked_iff (le_start_of_mem_tokenize_mark ht)
  place bodyOnly d hd := by
    obtain ⟨kind, name, parent, full, anchor, body⟩ := d
    cases bodyOnly with
    | false => rfl
    | true =>
      cases body with
      | none => rfl
      | some span =>
        show Located.mk (span.moved unmarked) ((file.withoutMark s).firstCodeOffset _) = _
        rw [firstCodeOffset_withoutMark h]
        rfl

/-- **What is found in a text is moved behind the mark.** -/
theorem locate_unmarked (h : parse? (mark :: s) = some file) (name : Text) (bodyOnly : Bool) :
    (file.withoutMark s).locate name bodyOnly = (file.locate name bodyOnly).map (Located.moved unmarked) :=
  (relocation_unmarked h).locate_eq name bodyOnly

/-! ## Places -/

/-- The indentation of an excerpt is measured from behind the mark. -/
theorem anchor_of_isPlace (h : parse? (mark :: s) = some file) {place : Located} (hplace : file.IsPlace place) :
    3 ≤ place.anchor ∧ Text.IsOffset (mark :: s) place.anchor := by
  have hlayout := layout_of_parse? h
  have htoken : ∀ t ∈ file.layout.tokens, 3 ≤ t.start ∧ Text.IsOffset (mark :: s) t.start := by
    intro t ht
    refine ⟨le_start_of_mem_tokens h ht, ?_⟩
    rw [hlayout] at ht
    exact (mem_tokenize (List.mem_toArray.mp ht)).1
  cases hplace with
  | full hd =>
    obtain ⟨t, ht, -, hanchor⟩ := exists_token_of_mem_declarations h hd
    dsimp only
    rw [hanchor]
    exact htoken t ht
  | @body d span hd hspan =>
    have hanchor := le_anchor_of_mem_declarations h hd
    have hlt := anchor_lt_start_of_body h hd hspan
    have hbody := (sound_of_parse? h).body d hd span hspan
    rw [hlayout] at hbody
    show 3 ≤ file.firstCodeOffset span ∧ Text.IsOffset (mark :: s) (file.firstCodeOffset span)
    unfold firstCodeOffset
    split
    · next t ht => exact htoken t (Array.mem_toList_iff.mp (List.mem_of_find?_eq_some ht))
    · exact ⟨by omega, hbody.start⟩
  | closed ht _ _ => exact htoken _ ht

/-- The line of a token, or the token where another one stands before it, is in front of the mark or behind what
follows it. -/
theorem lineStartOrToken_mark {i : Nat} {t : Token} (ht : (Layout.ofText (mark :: s)).tokens[i]? = some t) :
    (Layout.ofText (mark :: s)).lineStartOrToken i t = 0 ∨
      3 < (Layout.ofText (mark :: s)).lineStartOrToken i t := by
  have hmem := List.mem_toArray.mp (Array.mem_of_getElem? ht)
  unfold Layout.lineStartOrToken
  split
  · rcases LineTable.startOfLineAt_mark_cases (mem_tokenize hmem).1 (le_start_of_mem_tokenize_mark hmem) with
      ⟨-, hstart, -⟩ | ⟨-, hpos, hstart⟩
    · exact Or.inl hstart
    · refine Or.inr ?_
      show 3 < (LineTable.ofText (mark :: s)).startOfLineAt t.start
      omega
  · next hnot =>
    -- the first token begins its line
    cases i with
    | zero => exact absurd rfl hnot
    | succ i =>
      obtain ⟨hlt, -⟩ := Array.getElem?_eq_some_iff.mp ht
      obtain ⟨first, hfirst⟩ : ∃ first, (Layout.ofText (mark :: s)).tokens[0]? = some first :=
        ⟨_, Array.getElem?_eq_getElem (by omega)⟩
      have hfirstMem := List.mem_toArray.mp (Array.mem_of_getElem? hfirst)
      have hle := le_start_of_mem_tokenize_mark hfirstMem
      have hpos : first.start < first.stop := start_lt_stop_of_mem_tokensFrom hfirstMem
      have hbefore := (Layout.sound_ofText (mark :: s)).tokens 0 (i + 1) first t (Nat.succ_pos i) hfirst ht
      exact Or.inr (by omega)

/-- **An excerpt begins in front of the mark, or behind a character that follows the mark.** -/
theorem start_of_isPlace (h : parse? (mark :: s) = some file) {place : Located} (hplace : file.IsPlace place) :
    place.span.start = 0 ∨ 3 < place.span.start := by
  cases hplace with
  | full hd =>
    obtain ⟨e, rfl, hfits⟩ := (sound_of_parse? h).exists_entry hd
    rw [layout_of_parse? h] at hfits ⊢
    obtain ⟨i, t, hi, -, -⟩ := Layout.exists_codeToken? (Layout.sound_ofText (mark :: s))
      (Nat.lt_of_le_of_lt hfits.ordered hfits.lt)
    obtain ⟨u, -, hu, hstart⟩ := Layout.startOffset_eq hi
    show (Layout.ofText (mark :: s)).startOffset e.declared.first = 0 ∨
      3 < (Layout.ofText (mark :: s)).startOffset e.declared.first
    rw [hstart]
    exact lineStartOrToken_mark hu
  | body hd hspan =>
    have hanchor := le_anchor_of_mem_declarations h hd
    have hlt := anchor_lt_start_of_body h hd hspan
    exact Or.inr (by dsimp only; omega)
  | closed ht _ _ =>
    have hle := le_start_of_mem_tokens h ht
    rw [layout_of_parse? h] at ht
    have hpos := start_lt_stop_of_mem_tokensFrom (List.mem_toArray.mp ht)
    exact Or.inr (by dsimp only; omega)

end SourceFile

end Excerpt
