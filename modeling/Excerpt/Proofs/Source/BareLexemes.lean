import Excerpt.Proofs.Source.LineTokens
import Excerpt.Proofs.Text.CarriageReturns
import Mathlib.Data.List.Basic

/-!
# Excerpt — how far a token reaches without carriage returns

Where carriage returns stand in front of line feeds only, a token either has none, or goes across the end of
its line, or goes up to it. In each case the text without carriage returns begins with the same token without
them.

* **`Text.bareLength`** — how many of the first characters are left.
* **`Text.ReturnsEndLines.begins`** — the ways in which such a text can begin.
* **`Lexeme.recognise_bare`** — how far the first token reaches without carriage returns, from one lemma for
  each way in which a token can begin.
-/

namespace Excerpt

namespace Text

/-- How many of the first `n` characters are no carriage returns. -/
def bareLength (s : Text) (n : Nat) : Nat := (bare (s.take n)).length

theorem bareLength_append (a s : Text) (n : Nat) :
    bareLength (a ++ s) (a.length + n) = (bare a).length + bareLength s n := by
  rw [bareLength, List.take_length_add_append, bare_append, List.length_append, bareLength]

theorem bareLength_cons {c : Char} (hc : c ≠ '\r') (s : Text) (n : Nat) :
    bareLength (c :: s) (n + 1) = bareLength s n + 1 := by
  rw [bareLength, List.take_succ_cons, bare_cons hc, List.length_cons, bareLength]

theorem take_bareLength (s : Text) (n : Nat) : (bare s).take (bareLength s n) = bare (s.take n) := by
  have hparts := congrArg bare (List.take_append_drop n s)
  rw [bare_append] at hparts
  rw [← hparts, bareLength, List.take_left]

theorem drop_bareLength (s : Text) (n : Nat) : (bare s).drop (bareLength s n) = bare (s.drop n) := by
  have hparts := congrArg bare (List.take_append_drop n s)
  rw [bare_append] at hparts
  rw [← hparts, bareLength, List.drop_left]

theorem bareLength_return (s : Text) (n : Nat) : bareLength ('\r' :: s) (n + 1) = bareLength s n := rfl

theorem bareLength_of_start {t s : Text} (h : t <+: s) : bareLength s t.length = (bare t).length := by
  rw [bareLength, ← List.prefix_iff_eq_take.mp h]

theorem bareLength_of_notMem {t s : Text} (h : t <+: s) (ht : '\r' ∉ t) :
    bareLength s t.length = t.length := by
  rw [bareLength_of_start h, bare_of_notMem ht]

theorem bareLength_length (s : Text) : bareLength s s.length = (bare s).length :=
  bareLength_of_start (List.prefix_refl s)

/-- The ways in which a text can begin whose carriage returns stand in front of line feeds. -/
theorem ReturnsEndLines.begins {s : Text} (h : ReturnsEndLines s) :
    s = [] ∨ (∃ rest, s = '\r' :: '\n' :: rest) ∨ ∃ c rest, c ≠ '\r' ∧ s = c :: rest := by
  cases s with
  | nil => exact Or.inl rfl
  | cons c s =>
    by_cases hc : c = '\r'
    · subst hc
      obtain ⟨rest, rfl⟩ := h.exists_cons
      exact Or.inr (Or.inl ⟨rest, rfl⟩)
    · exact Or.inr (Or.inr ⟨c, s, hc, rfl⟩)

/-- Characters are taken up to the end of the line at most. -/
theorem takeWhile_bare_of_stop {p : Char → Bool} (hreturn : p '\r' = false) (hfeed : p '\n' = false)
    {s : Text} (h : ReturnsEndLines s) : (bare s).takeWhile p = s.takeWhile p := by
  induction s with
  | nil => rfl
  | cons c s ih =>
    by_cases hc : c = '\r'
    · subst hc
      obtain ⟨rest, rfl⟩ := h.exists_cons
      rw [bare_return, bare_cons (by decide), List.takeWhile_cons_of_neg (by rw [hfeed]; decide),
        List.takeWhile_cons_of_neg (by rw [hreturn]; decide)]
    · rw [bare_cons hc]
      by_cases hp : p c = true
      · rw [List.takeWhile_cons_of_pos hp, List.takeWhile_cons_of_pos hp, ih h.tail]
      · rw [List.takeWhile_cons_of_neg hp, List.takeWhile_cons_of_neg hp]

theorem notMem_takeWhile {p : Char → Bool} {d : Char} (hd : p d = false) (s : Text) :
    d ∉ s.takeWhile p := by
  intro hmem
  rw [List.mem_takeWhile_imp hmem] at hd
  cases hd

theorem bare_drop_takeWhile {p : Char → Bool} (hreturn : p '\r' = false) (s : Text) :
    (bare s).drop (s.takeWhile p).length = bare (s.drop (s.takeWhile p).length) := by
  have hs : bare s = s.takeWhile p ++ bare (s.drop (s.takeWhile p).length) := by
    rw [Lexeme.drop_length_takeWhile]
    have hparts := congrArg bare (List.takeWhile_append_dropWhile (p := p) (l := s))
    rwa [bare_append, bare_of_notMem (notMem_takeWhile hreturn s), eq_comm] at hparts
  rw [hs, List.drop_left]

theorem isPrefixOf?_bare {needle : Text} (hreturn : '\r' ∉ needle) (hfeed : '\n' ∉ needle) {s : Text}
    (h : ReturnsEndLines s) : needle.isPrefixOf? (bare s) = (needle.isPrefixOf? s).map bare := by
  induction needle generalizing s with
  | nil => rfl
  | cons d needle ih =>
    obtain ⟨hd, hreturn⟩ : ¬ '\r' = d ∧ '\r' ∉ needle := by simpa using hreturn
    obtain ⟨hd', hfeed⟩ : ¬ '\n' = d ∧ '\n' ∉ needle := by simpa using hfeed
    rcases h.begins with rfl | ⟨rest, rfl⟩ | ⟨c, rest, hc, rfl⟩
    · rfl
    · rw [bare_return, bare_cons (by decide), List.isPrefixOf?, List.isPrefixOf?]
      simp [Ne.symm hd, Ne.symm hd']
    · rw [bare_cons hc, List.isPrefixOf?, List.isPrefixOf?, ih hreturn hfeed h.tail]
      split <;> rfl

/-- What is looked for is found in the same place. -/
theorem splitAt?_bare {needle : Text} (hne : needle ≠ []) (hreturn : '\r' ∉ needle)
    (hfeed : '\n' ∉ needle) {s : Text} (h : ReturnsEndLines s) :
    splitAt? needle (bare s) = (splitAt? needle s).map fun parts => (bare parts.1, bare parts.2) := by
  induction s with
  | nil =>
    rw [bare_nil, splitAt?, if_neg (by simpa using hne)]
    rfl
  | cons c s ih =>
    have hfound := isPrefixOf?_bare hreturn hfeed h
    by_cases hc : c = '\r'
    · -- a carriage return begins nothing that is looked for
      have hnone : needle.isPrefixOf? (c :: s) = none := by
        cases needle with
        | nil => exact absurd rfl hne
        | cons d needle =>
          rw [List.isPrefixOf?, hc, if_neg]
          simp only [List.mem_cons, not_or] at hreturn
          simpa using Ne.symm hreturn.1
      rw [splitAt?, hnone, hc, bare_return, ih h.tail]
      cases splitAt? needle s <;> rfl
    · rw [bare_cons hc] at hfound ⊢
      rw [splitAt?, splitAt?, hfound, ih h.tail]
      cases needle.isPrefixOf? (c :: s) with
      | some after => rfl
      | none =>
        cases splitAt? needle s with
        | none => rfl
        | some parts => simp [bare_cons hc]

theorem append_of_splitAt?_eq_some {needle s front back : Text}
    (h : splitAt? needle s = some (front, back)) : s = front ++ (needle ++ back) := by
  induction s generalizing front with
  | nil =>
    unfold splitAt? at h
    split at h
    · next hempty =>
      cases h
      rw [List.isEmpty_iff.mp hempty]
      rfl
    · cases h
  | cons c s ih =>
    unfold splitAt? at h
    split at h
    · next after hafter =>
      cases h
      rw [List.nil_append]
      exact (List.append_eq_of_isPrefixOf?_eq_some hafter).symm
    · obtain ⟨⟨before, after⟩, hrest, heq⟩ := Option.map_eq_some_iff.mp h
      cases heq
      rw [ih hrest]
      rfl

end Text

namespace Lexeme

open Text (bare bare_cons bare_return bareLength ReturnsEndLines)

/-- The lexeme without the carriage returns in it, where `s` is what follows its first character. -/
def withoutReturns (s : Text) (r : TokenKind × Nat) : TokenKind × Nat := (r.1, bareLength s r.2)

theorem withoutReturns_after {a : Text} (ha : '\r' ∉ a) (s : Text) (r : TokenKind × Nat) :
    withoutReturns (a ++ s) (after a.length r) = after a.length (withoutReturns s r) := by
  simp only [withoutReturns, after, Text.bareLength_append, Text.bare_of_notMem ha]

/-! ## Literals -/

theorem restOfLine_bare (s : Text) : restOfLine (bare s) = bareLength s (restOfLine s) := by
  rw [restOfLine, Text.takeWhile_bare (by decide), restOfLine,
    Text.bareLength_of_start (List.takeWhile_prefix _)]

section Quoted

variable {quote : Char}

theorem quotedRest_quote (s : Text) : quotedRest quote (quote :: s) = (1, true) := by
  cases s <;> simp [quotedRest]

theorem quotedRest_lineFeed (hquote : quote ≠ '\n') (s : Text) :
    quotedRest quote ('\n' :: s) = (0, false) := by
  cases s <;> simp [quotedRest, Ne.symm hquote]

theorem quotedRest_backslash (hquote : quote ≠ '\\') {s : Text}
    (hs : s = [] ∨ s.head? = some '\n') : quotedRest quote ('\\' :: s) = (1, false) := by
  rcases hs with rfl | hhead
  · simp [quotedRest, Ne.symm hquote]
  · obtain ⟨rest, rfl⟩ := List.head?_eq_some_iff.mp hhead
    simp [quotedRest, Ne.symm hquote]

theorem quotedRest_escape (hquote : quote ≠ '\\') {d : Char} (hd : d ≠ '\n') (s : Text) :
    quotedRest quote ('\\' :: d :: s) = ((quotedRest quote s).1 + 2, (quotedRest quote s).2) := by
  simp [quotedRest, Ne.symm hquote, hd]

theorem quotedRest_other {c : Char} (hc : c ≠ quote) (hfeed : c ≠ '\n') (hslash : c ≠ '\\') (s : Text) :
    quotedRest quote (c :: s) = ((quotedRest quote s).1 + 1, (quotedRest quote s).2) := by
  cases s <;> simp [quotedRest, hc, hfeed, hslash]

theorem quotedRest_bare (hreturn : quote ≠ '\r') (hfeed : quote ≠ '\n') {s : Text}
    (h : ReturnsEndLines s) :
    quotedRest quote (bare s) = (bareLength s (quotedRest quote s).1, (quotedRest quote s).2) := by
  fun_induction quotedRest quote s with
  | case1 => rfl
  | case2 s =>
    rw [bare_cons hreturn, quotedRest_quote, Text.bareLength_cons hreturn]
    rfl
  | case3 s hne =>
    rw [bare_cons (by decide), quotedRest_lineFeed hfeed]
    rfl
  | case4 hne =>
    rw [bare_cons (by decide), Text.bare_nil, quotedRest_backslash (Ne.symm hne) (Or.inl rfl)]
    rfl
  | case5 s hne =>
    rw [bare_cons (by decide), bare_cons (by decide), quotedRest_backslash (Ne.symm hne) (Or.inr rfl)]
    rfl
  | case6 d s hd n closed heq hne _ ih =>
    by_cases hd' : d = '\r'
    · -- the escaped carriage return goes, and the line feed behind it ends the literal
      subst hd'
      obtain ⟨rest, rfl⟩ := h.tail.exists_cons
      rw [quotedRest_lineFeed hfeed] at heq
      cases heq
      rw [bare_cons (by decide), bare_return, bare_cons (by decide),
        quotedRest_backslash (Ne.symm hne) (Or.inr rfl)]
      rfl
    · have hrest := ih h.tail.tail
      rw [heq] at hrest
      rw [bare_cons (by decide), bare_cons hd', quotedRest_escape (Ne.symm hne) hd, hrest,
        Text.bareLength_cons (by decide), Text.bareLength_cons hd']
  | case7 c s hne hc hslash n closed heq ih =>
    have hrest := ih h.tail
    rw [heq] at hrest
    by_cases hc' : c = '\r'
    · rw [hc', bare_return, hrest, Text.bareLength_return]
    · rw [bare_cons hc', quotedRest_other hne hc hslash, hrest, Text.bareLength_cons hc']

end Quoted

theorem stringRest_bare {s : Text} (h : ReturnsEndLines s) :
    stringRest (bare s) = withoutReturns s (stringRest s) := by
  have hrest : quotedRest '"' (bare s) = _ := quotedRest_bare (by decide) (by decide) h
  simp only [stringRest, withoutReturns, hrest]

/-- The first character is the same, unless a line ends there. -/
theorem head?_bare {s : Text} (h : ReturnsEndLines s) {d : Char} (hd : d ≠ '\n') :
    (bare s).head? = some d ↔ s.head? = some d ∧ d ≠ '\r' := by
  rcases h.begins with rfl | ⟨rest, rfl⟩ | ⟨c, rest, hc, rfl⟩
  · simp
  · rw [bare_return, bare_cons (by decide)]
    simp [Ne.symm hd]
    rintro rfl
    simp
  · rw [bare_cons hc]
    simp
    rintro rfl
    exact hc

theorem head?_bare_eq_iff {s : Text} (h : ReturnsEndLines s) {d : Char} (hfeed : d ≠ '\n')
    (hreturn : d ≠ '\r') : (bare s).head? = some d ↔ s.head? = some d := by
  rw [head?_bare h hfeed]
  exact and_iff_left hreturn

theorem characterRest_of_head?_ne {s : Text} (h : s.head? ≠ some '\'') :
    characterRest s = (literalKind (quotedRest '\'' s).2, (quotedRest '\'' s).1) := by
  unfold characterRest
  split
  · exact absurd rfl h
  · rfl

theorem characterRest_bare {s : Text} (h : ReturnsEndLines s) :
    characterRest (bare s) = withoutReturns s (characterRest s) := by
  have hhead := head?_bare_eq_iff h (d := '\'') (by decide) (by decide)
  by_cases hs : s.head? = some '\''
  · obtain ⟨rest, rfl⟩ := List.head?_eq_some_iff.mp hs
    rfl
  · rw [characterRest_of_head?_ne hs, characterRest_of_head?_ne (fun hb => hs (hhead.mp hb)),
      quotedRest_bare (by decide) (by decide) h]
    rfl

theorem verbatimClose?_quote {s : Text} (h : s.head? ≠ some '"') :
    verbatimClose? ('"' :: s) = some 1 :=
  verbatimClose?.eq_3 s fun rest heq => h (by rw [heq]; rfl)

theorem verbatimClose?_other {c : Char} (hc : c ≠ '"') (s : Text) :
    verbatimClose? (c :: s) = (verbatimClose? s).map (· + 1) :=
  verbatimClose?.eq_4 c s (fun _ heq => absurd heq hc) hc

theorem verbatimClose?_bare {s : Text} (h : ReturnsEndLines s) :
    verbatimClose? (bare s) = (verbatimClose? s).map (bareLength s) := by
  fun_induction verbatimClose? s with
  | case1 => rfl
  | case2 s ih =>
    rw [bare_cons (by decide), bare_cons (by decide), verbatimClose?, ih h.tail.tail]
    cases verbatimClose? s with
    | none => rfl
    | some n =>
      simp only [Option.map_some, Text.bareLength_cons (show '"' ≠ '\r' by decide)]
  | case3 s hs =>
    have hhead : s.head? ≠ some '"' := fun heq =>
      have ⟨rest, heq⟩ := List.head?_eq_some_iff.mp heq
      hs rest heq
    have hbare := head?_bare_eq_iff h.tail (d := '"') (by decide) (by decide)
    rw [bare_cons (by decide), verbatimClose?_quote fun hb => hhead (hbare.mp hb)]
    rfl
  | case4 c s _ hc ih =>
    by_cases hreturn : c = '\r'
    · rw [hreturn, bare_return, ih h.tail, Option.map_map]
      congr 1
    · rw [bare_cons hreturn, verbatimClose?_other hc, ih h.tail, Option.map_map, Option.map_map]
      congr 1
      funext n
      exact (Text.bareLength_cons hreturn s n).symm

theorem verbatimRest_bare {s : Text} (h : ReturnsEndLines s) :
    verbatimRest (bare s) = withoutReturns s (verbatimRest s) := by
  unfold verbatimRest
  rw [verbatimClose?_bare h]
  cases verbatimClose? s with
  | some n => rfl
  | none => simp only [Option.map_none, withoutReturns, Text.bareLength_length]

theorem rawRest_bare {s : Text} (h : ReturnsEndLines s) :
    rawRest (bare s) = withoutReturns s (rawRest s) := by
  have hmore : (bare s).takeWhile (· = '"') = s.takeWhile (· = '"') :=
    Text.takeWhile_bare_of_stop (by decide) (by decide) h
  have hbehind := Text.bare_drop_takeWhile (p := fun c => c = '"') (by decide) s
  have hquotes : '\r' ∉ s.takeWhile (· = '"') := Text.notMem_takeWhile (by decide) s
  unfold rawRest
  dsimp only
  rw [hmore, hbehind, Text.splitAt?_bare (by simp) (by simp [List.mem_replicate])
    (by simp [List.mem_replicate]) (h.drop _)]
  cases hfound : Text.splitAt? (List.replicate ((s.takeWhile (· = '"')).length + 3) '"')
      (s.drop (s.takeWhile (· = '"')).length) with
  | none =>
    simp only [Option.map_none, withoutReturns,
      Text.bareLength_of_notMem (List.takeWhile_prefix _) hquotes]
  | some parts =>
    obtain ⟨body, back⟩ := parts
    have hs : s = s.takeWhile (· = '"') ++ (body ++ (List.replicate
        ((s.takeWhile (· = '"')).length + 3) '"' ++ back)) := by
      rw [← Text.append_of_splitAt?_eq_some hfound, drop_length_takeWhile,
        List.takeWhile_append_dropWhile]
    simp only [Option.map_some, withoutReturns]
    generalize s.takeWhile (· = '"') = quotes at hs hquotes ⊢
    rw [hs, Nat.add_assoc, Nat.add_assoc, Text.bareLength_append, Text.bareLength_append,
      Text.bare_of_notMem hquotes]
    have hclosing := Text.bareLength_of_notMem
      (List.prefix_append (List.replicate (quotes.length + 3) '"') back) (by simp [List.mem_replicate])
    rw [List.length_replicate] at hclosing
    rw [hclosing]

theorem bare_ne_quotes {s : Text} (h : ReturnsEndLines s) (hs : ∀ rest, s ≠ '"' :: '"' :: rest)
    (rest : Text) : bare s ≠ '"' :: '"' :: rest := by
  intro heq
  obtain ⟨t, rfl, ht⟩ := h.exists_of_bare_eq_cons (by decide) heq
  obtain ⟨u, rfl, -⟩ := h.tail.exists_of_bare_eq_cons (by decide) ht
  exact hs u rfl

theorem afterQuote_bare {s : Text} (h : ReturnsEndLines s) :
    afterQuote (bare s) = withoutReturns s (afterQuote s) := by
  by_cases hs : ∃ rest, s = '"' :: '"' :: rest
  · obtain ⟨rest, rfl⟩ := hs
    rw [bare_cons (by decide), bare_cons (by decide), afterQuote, afterQuote, rawRest_bare h.tail.tail]
    exact (withoutReturns_after (a := ['"', '"']) (by decide) rest _).symm
  · have hquotes : ∀ rest, s ≠ '"' :: '"' :: rest := fun rest heq => hs ⟨rest, heq⟩
    rw [afterQuote.eq_2 _ (bare_ne_quotes h hquotes), afterQuote.eq_2 _ hquotes, stringRest_bare h]

/-! ## Comments, preprocessor lines, names and numbers -/

theorem afterSlash_other {c : Char} (hslash : c ≠ '/') (hstar : c ≠ '*') (hassign : c ≠ '=')
    (s : Text) : afterSlash (c :: s) = (.operator, 0) := by
  unfold afterSlash
  split
  · next heq => exact absurd (List.cons.inj heq).1 hslash
  · next heq => exact absurd (List.cons.inj heq).1 hstar
  · next heq => exact absurd (List.cons.inj heq).1 hassign
  · rfl

theorem afterSlash_bare {s : Text} (h : ReturnsEndLines s) :
    afterSlash (bare s) = withoutReturns s (afterSlash s) := by
  rcases h.begins with rfl | ⟨rest, rfl⟩ | ⟨c, rest, hc, rfl⟩
  · rfl
  · rfl
  · rw [bare_cons hc]
    by_cases hslash : c = '/'
    · subst hslash
      simp only [afterSlash, withoutReturns, restOfLine_bare]
      rw [Nat.add_comm 1, Nat.add_comm 1, Text.bareLength_cons (by decide)]
    · by_cases hstar : c = '*'
      · subst hstar
        simp only [afterSlash]
        rw [Text.splitAt?_bare (by decide) (by decide) (by decide) h.tail]
        cases hfound : Text.splitAt? ['*', '/'] rest with
        | none => rfl
        | some parts =>
          obtain ⟨body, back⟩ := parts
          have hrest := Text.append_of_splitAt?_eq_some hfound
          have hclosed := Text.bareLength_append ('*' :: body) (['*', '/'] ++ back) 2
          have hlength : 1 + body.length + 2 = ('*' :: body).length + 2 := by
            rw [List.length_cons]
            omega
          simp only [Option.map_some, withoutReturns]
          rw [hrest, hlength, ← List.cons_append, hclosed, bare_cons (by decide), List.length_cons,
            Nat.add_comm 1]
          rfl
      · by_cases hassign : c = '='
        · subst hassign
          rfl
        · rw [afterSlash_other hslash hstar hassign, afterSlash_other hslash hstar hassign]
          rfl

theorem afterHash_bare {s : Text} (h : ReturnsEndLines s) :
    afterHash (bare s) = withoutReturns s (afterHash s) := by
  have hblanks : (bare s).takeWhile isIndent = s.takeWhile isIndent :=
    Text.takeWhile_bare_of_stop (by decide) (by decide) h
  have hbehind := Text.bare_drop_takeWhile (p := isIndent) (by decide) s
  have hlength : bareLength s (s.takeWhile isIndent).length = (s.takeWhile isIndent).length :=
    Text.bareLength_of_notMem (List.takeWhile_prefix _) (Text.notMem_takeWhile (by decide) s)
  unfold afterHash
  dsimp only
  rw [hblanks, hbehind]
  rcases (h.drop (s.takeWhile isIndent).length).begins with heq | ⟨rest, heq⟩ | ⟨c, rest, hc, heq⟩
  · rw [heq]
    simp only [Text.bare_nil, withoutReturns, hlength]
  · -- neither the carriage return nor the line feed begins a word
    rw [heq, bare_return, bare_cons (by decide)]
    have hfeed : ('\n' : Char).isAlpha = false := by decide
    have hreturn : ('\r' : Char).isAlpha = false := by decide
    simp only [hfeed, hreturn, Bool.false_eq_true, if_false, withoutReturns, hlength]
  · rw [heq, bare_cons hc]
    dsimp only
    split
    · rw [restOfLine_bare]
      rfl
    · rw [withoutReturns, hlength]

theorem ident_bare {s : Text} (h : ReturnsEndLines s) :
    ((bare s).takeWhile isNamePart).length = bareLength s (s.takeWhile isNamePart).length := by
  rw [Text.takeWhile_bare_of_stop (by decide) (by decide) h,
    Text.bareLength_of_notMem (List.takeWhile_prefix _) (Text.notMem_takeWhile (by decide) s)]

theorem afterDigit_whole {s : Text}
    (h : ∀ d rest, s.drop (s.takeWhile isNumberPart).length = '.' :: d :: rest → d.isDigit = false) :
    afterDigit s = (.number, (s.takeWhile isNumberPart).length) := by
  unfold afterDigit
  dsimp only
  split
  · next d rest heq => rw [h d rest heq, if_neg (by decide)]
  · rfl

theorem afterDigit_bare {s : Text} (h : ReturnsEndLines s) :
    afterDigit (bare s) = withoutReturns s (afterDigit s) := by
  have hwhole : ∀ {t : Text}, ReturnsEndLines t →
      (bare t).takeWhile isNumberPart = t.takeWhile isNumberPart :=
    fun ht => Text.takeWhile_bare_of_stop (by decide) (by decide) ht
  have hbehind := Text.bare_drop_takeWhile (p := isNumberPart) (by decide) s
  have hlength : ∀ t : Text, bareLength t (t.takeWhile isNumberPart).length =
      (t.takeWhile isNumberPart).length := fun t =>
    Text.bareLength_of_notMem (List.takeWhile_prefix _) (Text.notMem_takeWhile (by decide) t)
  have hdrop := h.drop (s.takeWhile isNumberPart).length
  by_cases hfraction : ∃ d rest, s.drop (s.takeWhile isNumberPart).length = '.' :: d :: rest ∧
      d.isDigit = true
  · -- the number goes on behind the point
    obtain ⟨d, rest, heq, hd⟩ := hfraction
    have hs : s = s.takeWhile isNumberPart ++ '.' :: d :: rest := by
      rw [← heq, drop_length_takeWhile, List.takeWhile_append_dropWhile]
    have hd' : d ≠ '\r' := by
      rintro rfl
      exact absurd hd (by decide)
    rw [heq] at hdrop
    have hcut := Text.bareLength_append (s.takeWhile isNumberPart) ('.' :: d :: rest)
      (2 + (rest.takeWhile isNumberPart).length)
    rw [← hs, Text.bare_of_notMem (Text.notMem_takeWhile (by decide) s), Nat.add_comm 2,
      Text.bareLength_cons (by decide), Text.bareLength_cons hd', hlength] at hcut
    unfold afterDigit
    dsimp only
    rw [hwhole h, hbehind, heq, bare_cons (by decide), bare_cons hd']
    simp only [hd, if_true, hwhole hdrop.tail.tail, withoutReturns]
    rw [Nat.add_assoc, Nat.add_comm 2, hcut]
  · have hnone : ∀ d rest, s.drop (s.takeWhile isNumberPart).length = '.' :: d :: rest →
        d.isDigit = false := by
      intro d rest heq
      rw [← Bool.not_eq_true]
      exact fun hd => hfraction ⟨d, rest, heq, hd⟩
    rw [afterDigit_whole hnone, afterDigit_whole, hwhole h, withoutReturns, hlength]
    -- a carriage return behind the point leaves a line feed there, so no digit comes up to the point
    intro d rest heq
    rw [hwhole h, hbehind] at heq
    obtain ⟨t, ht, hrest⟩ := hdrop.exists_of_bare_eq_cons (by decide) heq
    rw [ht] at hdrop
    cases hd : d.isDigit with
    | false => rfl
    | true =>
      have hfeed : d ≠ '\n' := by
        rintro rfl
        exact absurd hd (by decide)
      obtain ⟨u, rfl, -⟩ := hdrop.tail.exists_of_bare_eq_cons hfeed hrest
      rw [hnone d u ht] at hd
      cases hd

/-- Behind all dollar signs, where `single` tells that there is no second one. -/
def behindDollars (single : Bool) (s : Text) : TokenKind × Nat :=
  match s with
  | '"' :: '"' :: '"' :: s => after 3 (rawRest s)
  | '"' :: s =>
    if single then after 1 (stringRest s) else (.operator, 1 + (s.takeWhile (· = '"')).length)
  | '@' :: s =>
    if single then
      match s with
      | '"' :: s => after 2 (verbatimRest s)
      | _ => (.operator, 1)
    else (.operator, 0)
  | _ => (.operator, 0)

theorem afterDollar_eq (s : Text) :
    afterDollar s = after (s.takeWhile (· = '$')).length
      (behindDollars ((s.takeWhile (· = '$')).length = 0) (s.drop (s.takeWhile (· = '$')).length)) := by
  unfold afterDollar
  dsimp only
  generalize (s.takeWhile (· = '$')).length = dollars
  generalize s.drop dollars = rest
  split
  · simp only [behindDollars, after, Nat.add_assoc]
  · next t ht =>
    rw [behindDollars.eq_2 _ _ ht]
    by_cases hzero : dollars = 0
    · simp [hzero, after]
    · simp [hzero, after, Nat.add_assoc]
  · by_cases hzero : dollars = 0
    · simp only [behindDollars, hzero, if_true, decide_true]
      split <;> simp [after]
    · simp [behindDollars, hzero, after]
  · next hraw hquote hat =>
    rw [behindDollars.eq_5 _ _ hraw hquote hat]
    rfl

theorem behindDollars_bare (single : Bool) {s : Text} (h : ReturnsEndLines s) :
    behindDollars single (bare s) = withoutReturns s (behindDollars single s) := by
  have hfirst : ∀ {c : Char}, c ≠ '\n' → (∀ rest, s ≠ c :: rest) → ∀ rest, bare s ≠ c :: rest := by
    intro c hc hs rest heq
    obtain ⟨t, ht, -⟩ := h.exists_of_bare_eq_cons hc heq
    exact hs t ht
  -- the cases of the definition; no carriage return stands in front of what it finds, so the same is found
  -- without them
  by_cases hquote : ∃ rest, s = '"' :: rest
  · obtain ⟨rest, rfl⟩ := hquote
    by_cases hraw : ∃ inner, rest = '"' :: '"' :: inner
    · obtain ⟨inner, rfl⟩ := hraw
      rw [bare_cons (by decide), bare_cons (by decide), bare_cons (by decide), behindDollars,
        behindDollars, rawRest_bare h.tail.tail.tail]
      exact (withoutReturns_after (a := ['"', '"', '"']) (by decide) inner _).symm
    · have hquotes : ∀ inner, rest ≠ '"' :: '"' :: inner := fun inner heq => hraw ⟨inner, heq⟩
      rw [bare_cons (by decide), behindDollars.eq_2 _ _ (bare_ne_quotes h.tail hquotes),
        behindDollars.eq_2 _ _ hquotes]
      cases single with
      | true =>
        rw [if_pos rfl, if_pos rfl, stringRest_bare h.tail]
        exact (withoutReturns_after (a := ['"']) (by decide) rest _).symm
      | false =>
        rw [if_neg (by decide), if_neg (by decide), withoutReturns, Nat.add_comm 1, Nat.add_comm 1,
          Text.bareLength_cons (by decide), Text.bareLength_of_notMem (List.takeWhile_prefix _)
            (Text.notMem_takeWhile (by decide) rest),
          Text.takeWhile_bare_of_stop (by decide) (by decide) h.tail]
  · by_cases hat : ∃ rest, s = '@' :: rest
    · obtain ⟨rest, rfl⟩ := hat
      by_cases hverbatim : ∃ inner, rest = '"' :: inner
      · obtain ⟨inner, rfl⟩ := hverbatim
        rw [bare_cons (by decide), bare_cons (by decide), behindDollars, behindDollars]
        cases single with
        | true =>
          rw [if_pos rfl, if_pos rfl, verbatimRest_bare h.tail.tail]
          exact (withoutReturns_after (a := ['@', '"']) (by decide) inner _).symm
        | false => rfl
      · have hnone : ∀ inner, rest ≠ '"' :: inner := fun inner heq => hverbatim ⟨inner, heq⟩
        have hbare : ∀ inner, bare rest ≠ '"' :: inner := by
          intro inner heq
          obtain ⟨t, ht, -⟩ := h.tail.exists_of_bare_eq_cons (by decide) heq
          exact hnone t ht
        rw [bare_cons (by decide), behindDollars.eq_4 _ _ hbare, behindDollars.eq_4 _ _ hnone]
        cases single <;> rfl
    · have hquote' : ∀ rest, s ≠ '"' :: rest := fun rest heq => hquote ⟨rest, heq⟩
      have hat' : ∀ rest, s ≠ '@' :: rest := fun rest heq => hat ⟨rest, heq⟩
      rw [behindDollars.eq_5 single s (fun rest => hquote' _) hquote' hat',
        behindDollars.eq_5 single (bare s) (fun rest => hfirst (by decide) hquote' _)
          (hfirst (by decide) hquote') (hfirst (by decide) hat')]
      rfl

theorem afterDollar_bare {s : Text} (h : ReturnsEndLines s) :
    afterDollar (bare s) = withoutReturns s (afterDollar s) := by
  have hdollars : (bare s).takeWhile (· = '$') = s.takeWhile (· = '$') :=
    Text.takeWhile_bare_of_stop (by decide) (by decide) h
  have hbehind := Text.bare_drop_takeWhile (p := fun c => c = '$') (by decide) s
  have hs : s = s.takeWhile (· = '$') ++ s.drop (s.takeWhile (· = '$')).length := by
    rw [drop_length_takeWhile, List.takeWhile_append_dropWhile]
  rw [afterDollar_eq, afterDollar_eq, hdollars, hbehind, behindDollars_bare _ (h.drop _)]
  have hafter := withoutReturns_after (Text.notMem_takeWhile (p := fun c => c = '$') (by decide) s)
    (s.drop (s.takeWhile (· = '$')).length) (behindDollars
      ((s.takeWhile (· = '$')).length = 0) (s.drop (s.takeWhile (· = '$')).length))
  rw [← hs] at hafter
  exact hafter.symm

theorem isNameStart_return : isNameStart '\r' = false := by decide

theorem beginsLikeLetter_return : beginsLikeLetter '\r' = false := by decide

theorem afterAt_bare {s : Text} (h : ReturnsEndLines s) :
    afterAt (bare s) = withoutReturns s (afterAt s) := by
  rcases h.begins with rfl | ⟨rest, rfl⟩ | ⟨c, rest, hc, rfl⟩
  · rfl
  · -- neither the carriage return nor the line feed begins a name
    rw [bare_return, bare_cons (by decide), afterAt.eq_4 '\n' _ (by decide) (by simp) (by decide),
      afterAt.eq_4 '\r' _ (by decide) (by simp) (by decide), isNameStart_lineFeed,
      beginsLikeLetter_lineFeed, isNameStart_return, beginsLikeLetter_return]
    rfl
  · rw [bare_cons hc]
    by_cases hquote : c = '"'
    · subst hquote
      rw [afterAt, afterAt, verbatimRest_bare h.tail]
      exact (withoutReturns_after (a := ['"']) (by decide) rest _).symm
    · by_cases hdollar : c = '$'
      · subst hdollar
        by_cases hverbatim : ∃ inner, rest = '"' :: inner
        · obtain ⟨inner, rfl⟩ := hverbatim
          rw [bare_cons (by decide), afterAt, afterAt, verbatimRest_bare h.tail.tail]
          exact (withoutReturns_after (a := ['$', '"']) (by decide) inner _).symm
        · have hnone : ∀ inner, rest ≠ '"' :: inner := fun inner heq => hverbatim ⟨inner, heq⟩
          have hbare : ∀ inner, bare rest ≠ '"' :: inner := by
            intro inner heq
            obtain ⟨t, ht, -⟩ := h.tail.exists_of_bare_eq_cons (by decide) heq
            exact hnone t ht
          rw [afterAt.eq_3 _ hbare, afterAt.eq_3 _ hnone]
          rfl
      · rw [afterAt.eq_4 c _ hquote (fun _ heq => absurd heq hdollar) hdollar,
          afterAt.eq_4 c _ hquote (fun _ heq => absurd heq hdollar) hdollar]
        split
        · rw [ident_bare h.tail, withoutReturns, Nat.add_comm 1, Nat.add_comm 1,
            Text.bareLength_cons hc]
        · split
          · rw [withoutReturns, Text.bareLength_cons hc]
            rfl
          · rfl

/-! ## Operators and all tokens -/

theorem noReturn_compoundOperators : ∀ operator ∈ compoundOperators, '\r' ∉ operator := by decide

theorem afterOther_bare {c : Char} (hc : c ≠ '\r') {s : Text} (h : ReturnsEndLines (c :: s)) :
    afterOther c (bare s) = withoutReturns s (afterOther c s) := by
  have hhead := head?_bare_eq_iff h.tail (d := '>') (by decide) (by decide)
  have hfind : compoundOperators.find? (List.isPrefixOf · (c :: bare s)) =
      compoundOperators.find? (List.isPrefixOf · (c :: s)) := by
    rw [← List.head?_filter, ← List.head?_filter]
    congr 1
    refine List.filter_congr fun operator hoperator => ?_
    have hbare := Text.isPrefixOf?_bare (noReturn_compoundOperators operator hoperator)
      (noLineFeed_compoundOperators operator hoperator) h
    rw [bare_cons hc] at hbare
    rw [← List.isSome_isPrefixOf?_eq_isPrefixOf, ← List.isSome_isPrefixOf?_eq_isPrefixOf, hbare,
      Option.isSome_map]
  have harrow : decide ((bare s).head? = some '>') = decide (s.head? = some '>') := by
    simp only [hhead]
  unfold afterOther
  rw [hfind, harrow]
  split
  · next harrow =>
    simp only [Bool.and_eq_true, decide_eq_true_eq] at harrow
    obtain ⟨rest, rfl⟩ := List.head?_eq_some_iff.mp harrow.2
    rfl
  · split
    · next operator hfound =>
      have hprefixed := List.find?_some hfound
      have hstart : operator <+: c :: s := List.isPrefixOf_iff_prefix.mp hprefixed
      have hreturn := noReturn_compoundOperators operator (List.mem_of_find?_eq_some hfound)
      cases operator with
      | nil => rfl
      | cons d rest =>
        obtain ⟨rfl, hrest⟩ := List.cons_prefix_cons.mp hstart
        have hlength := Text.bareLength_of_notMem hrest
          fun hmem => hreturn (List.mem_cons_of_mem d hmem)
        rw [withoutReturns, List.length_cons, Nat.add_sub_cancel, hlength]
    · rfl

theorem recognise_bare {c : Char} (hc : c ≠ '\r') {s : Text} (h : ReturnsEndLines (c :: s)) :
    recognise c (bare s) = withoutReturns s (recognise c s) := by
  apply recognise_cases c (P := fun f => f (bare s) = withoutReturns s (f s))
  case slash => exact fun _ => afterSlash_bare h.tail
  case hash => exact fun _ => afterHash_bare h.tail
  case quote => exact fun _ => afterQuote_bare h.tail
  case apostrophe => exact fun _ => characterRest_bare h.tail
  case dollar => exact fun _ => afterDollar_bare h.tail
  case sign => exact fun _ => afterAt_bare h.tail
  case digit => exact fun _ => afterDigit_bare h.tail
  case name =>
    intro _
    show (TokenKind.ident, ((bare s).takeWhile isNamePart).length) = _
    rw [ident_bare h.tail, withoutReturns]
  case other => exact afterOther_bare hc h

end Lexeme

end Excerpt
