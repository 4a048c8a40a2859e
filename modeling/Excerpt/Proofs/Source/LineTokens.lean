import Excerpt.Proofs.Source.Offsets
import Excerpt.Proofs.Text.Lines
import Mathlib.Data.List.TakeWhile

/-!
# Excerpt — tokens that stay on their line

Only literals and block comments can go across the end of a line. On a line without quotes, number signs and
the start of a block comment no token does, and none of them is a preprocessor line, so the tokens of a text
that begins with such a line are those on the line and those of what follows it.

* **`IsPlainLine`** — the lines that are meant.
* **`recognise_cases`** — one case for each way in which a token can begin.
* **`recognise_line`** — how far the first token of such a line reaches, and what it is not.
* **`tokensFrom_line`**, **`tokensFrom_lines`** — the tokens of a text that begins with such lines.
-/

namespace Excerpt

/-- A line without what a token that reaches beyond it, or a preprocessor line, begins with. -/
structure IsPlainLine (l : Text) : Prop where
  noLineFeed : '\n' ∉ l
  noQuote : '"' ∉ l
  noApostrophe : '\'' ∉ l
  noHash : '#' ∉ l
  noBlockComment : ¬ ['/', '*'] <:+: l

namespace IsPlainLine

theorem of_suffix {a b : Text} (h : IsPlainLine b) (hsuffix : a <:+ b) : IsPlainLine a where
  noLineFeed hmem := h.noLineFeed (hsuffix.subset hmem)
  noQuote hmem := h.noQuote (hsuffix.subset hmem)
  noApostrophe hmem := h.noApostrophe (hsuffix.subset hmem)
  noHash hmem := h.noHash (hsuffix.subset hmem)
  noBlockComment hpair := h.noBlockComment (hpair.trans hsuffix.isInfix)

/-- Two characters that stand side by side behind spaces, and are no spaces, stand so without them. -/
theorem infix_of_infix_replicate_append {a b : Char} (ha : a ≠ ' ') {k : Nat} {l : Text}
    (h : [a, b] <:+: List.replicate k ' ' ++ l) : [a, b] <:+: l := by
  induction k with
  | zero => exact h
  | succ k ih =>
    rw [List.replicate_succ, List.cons_append, List.infix_cons_iff] at h
    rcases h with hstart | hpair
    · exact absurd (List.cons_prefix_cons.mp hstart).1 ha
    · exact ih hpair

theorem indented {l : Text} (h : IsPlainLine l) (k : Nat) :
    IsPlainLine (List.replicate k ' ' ++ l) where
  noLineFeed := by simpa using h.noLineFeed
  noQuote := by simpa using h.noQuote
  noApostrophe := by simpa using h.noApostrophe
  noHash := by simpa using h.noHash
  noBlockComment hpair := h.noBlockComment (infix_of_infix_replicate_append (by decide) hpair)

end IsPlainLine

namespace Lexeme

/-! ## How far a token reaches -/

theorem drop_length_takeWhile (p : Char → Bool) (l : Text) :
    l.drop (l.takeWhile p).length = l.dropWhile p := by
  have hleft : (l.takeWhile p ++ l.dropWhile p).drop (l.takeWhile p).length = l.dropWhile p :=
    List.drop_left
  rwa [List.takeWhile_append_dropWhile] at hleft

theorem length_takeWhile_add (p : Char → Bool) (l : Text) :
    (l.takeWhile p).length + (l.dropWhile p).length = l.length := by
  rw [← List.length_append, List.takeWhile_append_dropWhile]

theorem drop_takeWhile_line (p : Char → Bool) (l z : Text) :
    (l ++ '\n' :: z).drop (l.takeWhile p).length = l.dropWhile p ++ '\n' :: z := by
  rw [List.drop_append_of_le_length (List.takeWhile_prefix p).length_le, drop_length_takeWhile]

theorem length_takeWhile_line_le {p : Char → Bool} (hp : p '\n' = false) (l z : Text) :
    ((l ++ '\n' :: z).takeWhile p).length ≤ l.length := by
  rw [Text.takeWhile_append_stop hp]
  exact (List.takeWhile_prefix p).length_le

theorem restOfLine_append {l z : Text} (hl : '\n' ∉ l) (hz : z = [] ∨ z.head? = some '\n') :
    restOfLine (l ++ z) = l.length := by
  have htaken : l.takeWhile (· ≠ '\n') = l := by
    rw [List.takeWhile_eq_self_iff]
    intro c hc
    simp only [decide_eq_true_eq]
    rintro rfl
    exact hl hc
  rcases hz with rfl | hhead
  · rw [List.append_nil, restOfLine, htaken]
  · obtain ⟨rest, rfl⟩ := List.head?_eq_some_iff.mp hhead
    rw [restOfLine, Text.takeWhile_append_stop (by simp), htaken]

/-- **One case for each way in which a token can begin**: what holds of what is read behind each kind of first
character holds of what is read behind any. -/
theorem recognise_cases {P : (Text → TokenKind × Nat) → Prop} (c : Char)
    (slash : c = '/' → P afterSlash) (hash : c = '#' → P afterHash) (quote : c = '"' → P afterQuote)
    (apostrophe : c = '\'' → P characterRest) (dollar : c = '$' → P afterDollar)
    (sign : c = '@' → P afterAt) (digit : c.isDigit = true → P afterDigit)
    (name : isNameStart c = true → P fun s => (.ident, (s.takeWhile isNamePart).length))
    (other : P (afterOther c)) : P (recognise c) := by
  unfold recognise
  by_cases hslash : c = '/'
  · simp only [if_pos hslash]
    exact slash hslash
  simp only [if_neg hslash]
  by_cases hhash : c = '#'
  · simp only [if_pos hhash]
    exact hash hhash
  simp only [if_neg hhash]
  by_cases hquote : c = '"'
  · simp only [if_pos hquote]
    exact quote hquote
  simp only [if_neg hquote]
  by_cases hapostrophe : c = '\''
  · simp only [if_pos hapostrophe]
    exact apostrophe hapostrophe
  simp only [if_neg hapostrophe]
  by_cases hdollar : c = '$'
  · simp only [if_pos hdollar]
    exact dollar hdollar
  simp only [if_neg hdollar]
  by_cases hsign : c = '@'
  · simp only [if_pos hsign]
    exact sign hsign
  simp only [if_neg hsign]
  by_cases hdigit : c.isDigit = true
  · simp only [if_pos hdigit]
    exact digit hdigit
  simp only [if_neg hdigit]
  by_cases hname : isNameStart c = true
  · simp only [if_pos hname]
    exact name hname
  simp only [if_neg hname]
  exact other

/-- The token takes no more than `n` characters, is no preprocessor line, and a comment only under a
condition. -/
structure StaysWithin (n : Nat) (comment : Prop) (r : TokenKind × Nat) : Prop where
  length_le : r.2 ≤ n
  noDirective : r.1 ≠ .directive
  ofLineComment : r.1 = .lineComment → comment

theorem StaysWithin.of_kind {n m : Nat} {comment : Prop} {kind : TokenKind} (hle : m ≤ n)
    (hdirective : kind ≠ .directive) (hcomment : kind ≠ .lineComment) :
    StaysWithin n comment (kind, m) :=
  ⟨hle, hdirective, fun h => absurd h hcomment⟩

section Recognisers

variable {comment : Prop} {l : Text} (z : Text)

theorem afterSlash_line (hl : '\n' ∉ l) (hstar : l.head? ≠ some '*') :
    StaysWithin l.length (l.head? = some '/') (afterSlash (l ++ '\n' :: z)) := by
  cases l with
  | nil => exact .of_kind (Nat.le_refl 0) (by simp) (by simp)
  | cons d l =>
    by_cases hslash : d = '/'
    · subst hslash
      have hrest : restOfLine (l ++ '\n' :: z) = l.length :=
        restOfLine_append (fun hmem => hl (List.mem_cons_of_mem _ hmem)) (Or.inr rfl)
      refine ⟨?_, by simp [afterSlash], fun _ => rfl⟩
      simp only [List.cons_append, afterSlash, hrest, List.length_cons]
      omega
    · have hd : d ≠ '*' := fun heq => hstar (by rw [heq]; rfl)
      unfold afterSlash
      split
      · next heq => exact absurd (List.cons.inj heq).1 hslash
      · next heq => exact absurd (List.cons.inj heq).1 hd
      · exact .of_kind (Nat.succ_le_succ (Nat.zero_le _)) (by simp) (by simp)
      · exact .of_kind (Nat.zero_le _) (by simp) (by simp)

theorem afterDollar_line (hquote : '"' ∉ l) :
    StaysWithin l.length comment (afterDollar (l ++ '\n' :: z)) := by
  have hquoteRest : '"' ∉ l.dropWhile (· = '$') :=
    fun hmem => hquote ((List.dropWhile_suffix _).subset hmem)
  have hlength := length_takeWhile_add (· = '$') l
  unfold afterDollar
  dsimp only
  rw [Text.takeWhile_append_stop (by decide), drop_takeWhile_line]
  cases hrest : l.dropWhile (· = '$') with
  | nil => exact .of_kind (List.takeWhile_prefix _).length_le (by simp) (by simp)
  | cons d r =>
    rw [hrest] at hquoteRest hlength
    have hd : d ≠ '"' := fun heq => hquoteRest (by rw [heq]; exact List.mem_cons_self)
    rw [List.length_cons] at hlength
    rw [List.cons_append]
    split
    · next heq => exact absurd (List.cons.inj heq).1 hd
    · next heq => exact absurd (List.cons.inj heq).1 hd
    · next heq =>
      obtain ⟨-, rfl⟩ := List.cons.inj heq
      split
      · split
        · next hquoted =>
          -- the quote would be the next character of the line
          cases r with
          | nil => cases (List.cons.inj hquoted).1
          | cons e r =>
            obtain ⟨rfl, -⟩ := List.cons.inj hquoted
            exact absurd (List.mem_cons_of_mem _ List.mem_cons_self) hquoteRest
        · exact .of_kind (by omega) (by simp) (by simp)
      · exact .of_kind (by omega) (by simp) (by simp)
    · exact .of_kind (by omega) (by simp) (by simp)

theorem isNamePart_lineFeed : isNamePart '\n' = false := by decide

theorem isNameStart_lineFeed : isNameStart '\n' = false := by decide

theorem beginsLikeLetter_lineFeed : beginsLikeLetter '\n' = false := by decide

theorem afterAt_line (hquote : '"' ∉ l) :
    StaysWithin l.length comment (afterAt (l ++ '\n' :: z)) := by
  cases l with
  | nil =>
    rw [List.nil_append, afterAt, isNameStart_lineFeed, beginsLikeLetter_lineFeed]
    · exact .of_kind (Nat.le_refl 0) (by simp) (by simp)
    all_goals simp
  | cons d l =>
    have hd : d ≠ '"' := fun heq => hquote (by rw [heq]; exact List.mem_cons_self)
    rw [List.cons_append]
    unfold afterAt
    split
    · next heq => exact absurd (List.cons.inj heq).1 hd
    · next heq =>
      obtain ⟨-, hquoted⟩ := List.cons.inj heq
      cases l with
      | nil => cases (List.cons.inj hquoted).1
      | cons e l =>
        obtain ⟨rfl, -⟩ := List.cons.inj hquoted
        exact absurd (List.mem_cons_of_mem _ List.mem_cons_self) hquote
    · exact .of_kind (Nat.succ_le_succ (Nat.zero_le _)) (by simp) (by simp)
    · next heq =>
      obtain ⟨rfl, rfl⟩ := List.cons.inj heq
      have hname := length_takeWhile_line_le isNamePart_lineFeed l z
      split
      · exact .of_kind (by rw [List.length_cons]; omega) (by simp) (by simp)
      · split
        · exact .of_kind (Nat.succ_le_succ (Nat.zero_le _)) (by simp) (by simp)
        · exact .of_kind (Nat.zero_le _) (by simp) (by simp)
    · next heq => cases heq

theorem afterDigit_line : StaysWithin l.length comment (afterDigit (l ++ '\n' :: z)) := by
  have hlength := length_takeWhile_add isNumberPart l
  unfold afterDigit
  dsimp only
  rw [Text.takeWhile_append_stop (by decide), drop_takeWhile_line]
  split
  · next d s heq =>
    split
    · next hdigit =>
      -- a digit stands behind the point, so both are on the line
      rcases hrest : l.dropWhile isNumberPart with _ | ⟨e, _ | ⟨f, r⟩⟩
      · rw [hrest] at heq
        cases (List.cons.inj heq).1
      · rw [hrest] at heq
        obtain ⟨rfl, -⟩ := List.cons.inj (List.cons.inj heq).2
        exact absurd hdigit (by decide)
      · rw [hrest] at heq hlength
        have hfraction := length_takeWhile_line_le (p := isNumberPart) (by decide) r z
        have hs : r ++ '\n' :: z = s := (List.cons.inj (List.cons.inj heq).2).2
        rw [hs] at hfraction
        simp only [List.length_cons] at hlength
        exact .of_kind (by omega) (by simp) (by simp)
    · exact .of_kind (List.takeWhile_prefix _).length_le (by simp) (by simp)
  · exact .of_kind (List.takeWhile_prefix _).length_le (by simp) (by simp)

theorem noLineFeed_compoundOperators : ∀ operator ∈ compoundOperators, '\n' ∉ operator := by decide

theorem singleKind_ne (c : Char) : singleKind c ≠ .directive ∧ singleKind c ≠ .lineComment := by
  unfold singleKind
  split <;> simp

theorem afterOther_line (c : Char) : StaysWithin l.length comment (afterOther c (l ++ '\n' :: z)) := by
  unfold afterOther
  split
  · next harrow =>
    cases l with
    | nil => exact absurd harrow (by simp)
    | cons d l => exact .of_kind (Nat.succ_le_succ (Nat.zero_le _)) (by simp) (by simp)
  · split
    · next operator hfind =>
      have hfound := List.find?_some hfind
      have hstart : operator <+: c :: l ++ '\n' :: z := List.isPrefixOf_iff_prefix.mp hfound
      have hfree := noLineFeed_compoundOperators operator (List.mem_of_find?_eq_some hfind)
      have hle : operator.length ≤ (c :: l).length := by
        refine Nat.le_of_not_lt fun hlt => hfree ?_
        have hline : c :: l ++ ['\n'] <+: operator := by
          refine List.prefix_of_prefix_length_le ⟨z, by simp⟩ hstart ?_
          rw [List.length_append, List.length_singleton]
          omega
        exact hline.subset (List.mem_append_right _ List.mem_cons_self)
      rw [List.length_cons] at hle
      exact .of_kind (by omega) (by simp) (by simp)
    · exact .of_kind (Nat.zero_le _) (singleKind_ne c).1 (singleKind_ne c).2

/-- **The first token of a plain line stays on it**, is no preprocessor line, and a comment only where two
slashes stand side by side. -/
theorem recognise_line {c : Char} (h : IsPlainLine (c :: l)) :
    StaysWithin l.length (['/', '/'] <:+: c :: l) (recognise c (l ++ '\n' :: z)) := by
  have hquote : '"' ∉ l := fun hmem => h.noQuote (List.mem_cons_of_mem _ hmem)
  have hne : ∀ d, d ∉ c :: l → c ≠ d := fun d hd heq => hd (by rw [heq]; exact List.mem_cons_self)
  apply recognise_cases c (P := fun f => StaysWithin l.length (['/', '/'] <:+: c :: l) (f (l ++ '\n' :: z)))
  case slash =>
    intro hslash
    have hsecond : ∀ d, l.head? = some d → ['/', d] <:+: c :: l := by
      intro d hd
      obtain ⟨rest, rfl⟩ := List.head?_eq_some_iff.mp hd
      exact ⟨[], rest, by rw [hslash]; rfl⟩
    have hline := afterSlash_line z (fun hmem => h.noLineFeed (List.mem_cons_of_mem _ hmem))
      fun hstar => h.noBlockComment (hsecond '*' hstar)
    exact ⟨hline.length_le, hline.noDirective, fun hkind => hsecond '/' (hline.ofLineComment hkind)⟩
  case hash => exact fun hhash => absurd hhash (hne '#' h.noHash)
  case quote => exact fun hquoted => absurd hquoted (hne '"' h.noQuote)
  case apostrophe => exact fun hquoted => absurd hquoted (hne '\'' h.noApostrophe)
  case dollar => exact fun _ => afterDollar_line z hquote
  case sign => exact fun _ => afterAt_line z hquote
  case digit => exact fun _ => afterDigit_line z
  case name =>
    exact fun _ => .of_kind (length_takeWhile_line_le isNamePart_lineFeed l z) (by simp) (by simp)
  case other => exact afterOther_line z c

end Recognisers

end Lexeme

/-! ## The tokens of lines -/

theorem tokensFrom_cons_of_skipped {c : Char} (h : Lexeme.isSkipped c = true) (offset : Nat)
    (s : Text) : tokensFrom offset (c :: s) = tokensFrom (offset + c.utf8Size) s := by
  rw [tokensFrom, if_pos h]

theorem tokensFrom_cons_of_not_skipped {c : Char} (h : ¬ Lexeme.isSkipped c = true) (offset : Nat)
    (s : Text) {kind : TokenKind} {n : Nat} (hlex : Lexeme.recognise c s = (kind, n)) :
    tokensFrom offset (c :: s) =
      ⟨kind, c :: s.take n, offset⟩ ::
        tokensFrom (offset + Text.width (c :: s.take n)) (s.drop n) := by
  rw [tokensFrom, if_neg h]
  simp only [hlex]

/-- The same token `n` bytes further on. -/
def Token.shifted (n : Nat) (t : Token) : Token := { t with start := t.start + n }

/-- **A text has the same tokens wherever it starts.** -/
theorem tokensFrom_add (offset n : Nat) (s : Text) :
    tokensFrom (offset + n) s = (tokensFrom offset s).map (Token.shifted n) := by
  fun_induction tokensFrom offset s with
  | case1 => rw [tokensFrom, List.map_nil]
  | case2 offset c rest hskipped ih => rw [tokensFrom_cons_of_skipped hskipped, Nat.add_right_comm, ih]
  | case3 offset c rest hskipped kind m hlex text ih =>
    rw [tokensFrom_cons_of_not_skipped hskipped _ _ hlex, List.map_cons, Nat.add_right_comm, ih]
    rfl

theorem tokensFrom_replicate (offset k : Nat) (s : Text) :
    tokensFrom offset (List.replicate k ' ' ++ s) = tokensFrom (offset + k) s := by
  induction k generalizing offset with
  | zero => rfl
  | succ k ih =>
    rw [List.replicate_succ, List.cons_append, tokensFrom_cons_of_skipped (by decide), ih]
    congr 1
    show offset + 1 + k = offset + (k + 1)
    omega

/-- **The tokens of a text that begins with a plain line** are tokens of that line, and then those of what
follows it. Induction on the length of the line. -/
theorem tokensFrom_line {l : Text} (h : IsPlainLine l) (offset : Nat) (z : Text) :
    ∃ inner, tokensFrom offset (l ++ '\n' :: z) =
        inner ++ tokensFrom (offset + Text.width l + 1) z ∧
      ∀ t ∈ inner, t.kind ≠ .directive ∧ (t.kind = .lineComment → ['/', '/'] <:+: l) := by
  match l with
  | [] => exact ⟨[], tokensFrom_cons_of_skipped (by decide) offset z, by simp⟩
  | c :: l =>
    by_cases hskipped : Lexeme.isSkipped c = true
    · obtain ⟨inner, heq, hinner⟩ :=
        tokensFrom_line (h.of_suffix (List.suffix_cons c l)) (offset + c.utf8Size) z
      refine ⟨inner, ?_, ?_⟩
      · rw [List.cons_append, tokensFrom_cons_of_skipped hskipped, heq, Text.width_cons,
          Nat.add_assoc offset]
      · intro t ht
        exact ⟨(hinner t ht).1, fun hkind => (hinner t ht).2 hkind |>.trans (List.suffix_cons c l).isInfix⟩
    · have hstays := Lexeme.recognise_line z h
      rcases hlex : Lexeme.recognise c (l ++ '\n' :: z) with ⟨kind, n⟩
      rw [hlex] at hstays
      have hn : n ≤ l.length := hstays.length_le
      have hsuffix : l.drop n <:+ c :: l := (List.drop_suffix n l).trans (List.suffix_cons c l)
      obtain ⟨inner, heq, hinner⟩ := tokensFrom_line (h.of_suffix hsuffix)
        (offset + Text.width (c :: l.take n)) z
      refine ⟨⟨kind, c :: l.take n, offset⟩ :: inner, ?_, List.forall_mem_cons.mpr ⟨?_, ?_⟩⟩
      · have hwidth : Text.width (c :: l.take n) + Text.width (l.drop n) = Text.width (c :: l) := by
          rw [← Text.width_append, List.cons_append, List.take_append_drop]
        rw [List.cons_append, tokensFrom_cons_of_not_skipped hskipped _ _ hlex,
          List.take_append_of_le_length hn, List.drop_append_of_le_length hn, heq, List.cons_append,
          Nat.add_assoc offset, hwidth]
      · exact ⟨hstays.noDirective, hstays.ofLineComment⟩
      · intro t ht
        exact ⟨(hinner t ht).1, fun hkind => (hinner t ht).2 hkind |>.trans hsuffix.isInfix⟩
termination_by l.length
decreasing_by
  all_goals
    simp only [List.length_cons, List.length_drop]
    omega

/-- The tokens of a text that begins with several plain lines. -/
theorem tokensFrom_lines {ls : List Text} (h : ∀ l ∈ ls, IsPlainLine l) (offset : Nat) (z : Text) :
    ∃ inner, tokensFrom offset (ls.flatMap (· ++ ['\n']) ++ z) =
        inner ++ tokensFrom (offset + Text.width (ls.flatMap (· ++ ['\n']))) z ∧
      ∀ t ∈ inner, t.kind ≠ .directive ∧ (t.kind = .lineComment → ∃ l ∈ ls, ['/', '/'] <:+: l) := by
  induction ls generalizing offset with
  | nil => exact ⟨[], rfl, by simp⟩
  | cons l ls ih =>
    obtain ⟨hl, hls⟩ := List.forall_mem_cons.mp h
    obtain ⟨first, hfirst, hfirstKind⟩ :=
      tokensFrom_line hl offset (ls.flatMap (· ++ ['\n']) ++ z)
    obtain ⟨inner, hinner, hinnerKind⟩ := ih hls (offset + Text.width l + 1)
    refine ⟨first ++ inner, ?_, ?_⟩
    · rw [List.flatMap_cons, List.append_assoc, List.append_assoc, List.singleton_append, hfirst,
        hinner, List.append_assoc, Text.width_append, Text.width_append]
      rw [Nat.add_assoc offset, Nat.add_assoc offset]
      rfl
    · intro t ht
      rcases List.mem_append.mp ht with hmem | hmem
      · exact ⟨(hfirstKind t hmem).1, fun hkind => ⟨l, List.mem_cons_self, (hfirstKind t hmem).2 hkind⟩⟩
      · refine ⟨(hinnerKind t hmem).1, fun hkind => ?_⟩
        obtain ⟨m, hm, hpair⟩ := (hinnerKind t hmem).2 hkind
        exact ⟨m, List.mem_cons_of_mem l hm, hpair⟩

end Excerpt
