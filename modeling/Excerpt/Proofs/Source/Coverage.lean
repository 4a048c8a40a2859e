import Excerpt.Proofs.Source.BareTokens

/-!
# Excerpt — tokens leave no gaps

The lexer goes over a text once. What it does not skip it gives to a token, and a token takes as many characters
as were recognised: a recogniser never asks for more than the text still has, also where a literal is not closed,
where a raw literal goes on behind the quotes that open it, and where nothing fits at all.

* **`Lexeme.recognise_le_length`** — no token reaches beyond the end of the text.
* **`IsCut`** — how a text is cut into tokens and skipped characters; **`isCut_tokenize`** — the lexer cuts so.
* **`IsCut.exists_append`**, **`IsCut.covers`** — where each token stands, and which token each character is in.
* **`tokenize_leaves_no_gap`** — what the tokens of a text cover.
-/

namespace Excerpt

namespace Lexeme

/-! ## No token reaches beyond the end -/

theorem length_takeWhile_le (p : Char → Bool) (s : Text) : (s.takeWhile p).length ≤ s.length :=
  (List.takeWhile_prefix p).length_le

theorem quotedRest_le_length (quote : Char) (s : Text) : (quotedRest quote s).1 ≤ s.length := by
  fun_induction quotedRest quote s with
  | case1 => exact Nat.le_refl 0
  | case2 s => simp
  | case3 => simp
  | case4 => simp
  | case5 => simp
  | case6 d s _ n closed heq _ _ ih =>
    rw [heq] at ih
    simpa using ih
  | case7 c s _ _ _ n closed heq ih =>
    rw [heq] at ih
    simpa using ih

theorem verbatimClose?_le_length {s : Text} {n : Nat} (h : verbatimClose? s = some n) : n ≤ s.length := by
  fun_induction verbatimClose? s generalizing n with
  | case1 => cases h
  | case2 s ih =>
    obtain rfl := Option.some.inj h
    cases hrest : verbatimClose? s with
    | none => simp
    | some m =>
      have hm := ih hrest
      simp only [List.length_cons]
      omega
  | case3 s _ =>
    obtain rfl := Option.some.inj h
    simp
  | case4 c s _ _ ih =>
    obtain ⟨m, hm, rfl⟩ := Option.map_eq_some_iff.mp h
    have hle := ih hm
    simp only [List.length_cons]
    omega

theorem verbatimRest_le_length (s : Text) : (verbatimRest s).2 ≤ s.length := by
  unfold verbatimRest
  split
  · next n hclose => exact verbatimClose?_le_length hclose
  · exact Nat.le_refl _

/-- The run of quotes that closes a raw literal stands in the text. -/
theorem rawRest_le_length (s : Text) : (rawRest s).2 ≤ s.length := by
  have hmore := length_takeWhile_le (· = '"') s
  unfold rawRest
  dsimp only
  split
  · next body back hfound =>
    have hlength := congrArg List.length (Text.append_of_splitAt?_eq_some hfound)
    simp only [List.length_drop, List.length_append, List.length_replicate] at hlength
    dsimp only
    omega
  · exact hmore

theorem after_le_length {a s : Text} {r : TokenKind × Nat} (h : r.2 ≤ s.length) :
    (after a.length r).2 ≤ (a ++ s).length := by
  rw [List.length_append]
  exact Nat.add_le_add_left h _

theorem stringRest_le_length (s : Text) : (stringRest s).2 ≤ s.length := quotedRest_le_length '"' s

theorem characterRest_le_length (s : Text) : (characterRest s).2 ≤ s.length := by
  unfold characterRest
  split
  · exact Nat.zero_le _
  · exact quotedRest_le_length '\'' _

theorem afterQuote_le_length (s : Text) : (afterQuote s).2 ≤ s.length := by
  unfold afterQuote
  split
  · next s => exact after_le_length (a := ['"', '"']) (rawRest_le_length s)
  · exact stringRest_le_length _

theorem afterSlash_le_length (s : Text) : (afterSlash s).2 ≤ s.length := by
  unfold afterSlash
  split
  · next s =>
    have hrest := length_takeWhile_le (· ≠ '\n') s
    rw [List.length_cons, Nat.add_comm]
    exact Nat.succ_le_succ hrest
  · next s =>
    split
    · next body back hfound =>
      have hlength := congrArg List.length (Text.append_of_splitAt?_eq_some hfound)
      simp only [List.length_append, List.length_cons, List.length_nil] at hlength ⊢
      omega
    · exact Nat.zero_le _
  · simp
  · exact Nat.zero_le _

theorem afterHash_le_length (s : Text) : (afterHash s).2 ≤ s.length := by
  have hblanks := length_takeWhile_le isIndent s
  unfold afterHash
  dsimp only
  split
  · split
    · exact length_takeWhile_le (· ≠ '\n') s
    · exact hblanks
  · exact hblanks

theorem behindDollars_le_length (single : Bool) (s : Text) : (behindDollars single s).2 ≤ s.length := by
  unfold behindDollars
  split
  · next s => exact after_le_length (a := ['"', '"', '"']) (rawRest_le_length s)
  · next s _ =>
    split
    · exact after_le_length (a := ['"']) (stringRest_le_length s)
    · have hquotes := length_takeWhile_le (· = '"') s
      rw [List.length_cons, Nat.add_comm]
      exact Nat.succ_le_succ hquotes
  · split
    · split
      · next s => exact after_le_length (a := ['@', '"']) (verbatimRest_le_length s)
      · simp
    · exact Nat.zero_le _
  · exact Nat.zero_le _

theorem afterDollar_le_length (s : Text) : (afterDollar s).2 ≤ s.length := by
  have hbehind := behindDollars_le_length ((s.takeWhile (· = '$')).length = 0)
    (s.drop (s.takeWhile (· = '$')).length)
  have hdollars := length_takeWhile_le (· = '$') s
  rw [List.length_drop] at hbehind
  rw [afterDollar_eq]
  exact Nat.le_trans (Nat.add_le_add_left hbehind _) (by omega)

theorem afterAt_le_length (s : Text) : (afterAt s).2 ≤ s.length := by
  unfold afterAt
  split
  · next s => exact after_le_length (a := ['"']) (verbatimRest_le_length s)
  · next s => exact after_le_length (a := ['$', '"']) (verbatimRest_le_length s)
  · simp
  · next c s _ _ _ =>
    split
    · have hname := length_takeWhile_le isNamePart s
      rw [List.length_cons, Nat.add_comm]
      exact Nat.succ_le_succ hname
    · split
      · simp
      · exact Nat.zero_le _
  · exact Nat.zero_le _

/-- The digits behind a dot are a part of what follows the whole part. -/
theorem afterDigit_le_length (s : Text) : (afterDigit s).2 ≤ s.length := by
  have hwhole := length_takeWhile_le isNumberPart s
  unfold afterDigit
  dsimp only
  split
  · next d rest heq =>
    split
    · have hlength := congrArg List.length heq
      have hdigits := length_takeWhile_le isNumberPart rest
      simp only [List.length_drop, List.length_cons] at hlength
      dsimp only
      omega
    · exact hwhole
  · exact hwhole

theorem afterOther_le_length (c : Char) (s : Text) : (afterOther c s).2 ≤ s.length := by
  unfold afterOther
  split
  · next harrow =>
    simp only [Bool.and_eq_true, decide_eq_true_eq] at harrow
    obtain ⟨rest, rfl⟩ := List.head?_eq_some_iff.mp harrow.2
    simp
  · split
    · next operator hfound =>
      have hprefixed := List.find?_some hfound
      have hlength := (List.isPrefixOf_iff_prefix.mp hprefixed).length_le
      rw [List.length_cons] at hlength
      dsimp only
      omega
    · exact Nat.zero_le _

/-- **No token reaches beyond the end of the text.** -/
theorem recognise_le_length (c : Char) (s : Text) : (recognise c s).2 ≤ s.length := by
  apply recognise_cases c (P := fun f => (f s).2 ≤ s.length)
  case slash => exact fun _ => afterSlash_le_length s
  case hash => exact fun _ => afterHash_le_length s
  case quote => exact fun _ => afterQuote_le_length s
  case apostrophe => exact fun _ => characterRest_le_length s
  case dollar => exact fun _ => afterDollar_le_length s
  case sign => exact fun _ => afterAt_le_length s
  case digit => exact fun _ => afterDigit_le_length s
  case name => exact fun _ => length_takeWhile_le isNamePart s
  case other => exact afterOther_le_length c s

/-- What the lexer skips: spaces, tabs, line ends, form feeds and byte order marks. -/
theorem isSkipped_iff {c : Char} :
    isSkipped c = true ↔ c ∈ [' ', '\t', '\r', '\n', '\x0c', '\uFEFF'] := by
  simp [isSkipped, or_assoc]

end Lexeme

/-! ## How a text is cut -/

/-- How a text that starts at an offset is cut into tokens. A character is skipped, or a token begins with it and
has just as many characters as are recognised. -/
inductive IsCut : Nat → Text → List Token → Prop where
  | nil (offset : Nat) : IsCut offset [] []
  | skip (offset : Nat) (c : Char) (rest : Text) (tokens : List Token) (hskipped : Lexeme.isSkipped c = true)
      (hrest : IsCut (offset + c.utf8Size) rest tokens) : IsCut offset (c :: rest) tokens
  | token (offset : Nat) (c : Char) (more rest : Text) (kind : TokenKind) (tokens : List Token)
      (hkept : ¬ Lexeme.isSkipped c = true) (hlex : Lexeme.recognise c (more ++ rest) = (kind, more.length))
      (hrest : IsCut (offset + Text.width (c :: more)) rest tokens) :
      IsCut offset (c :: (more ++ rest)) (⟨kind, c :: more, offset⟩ :: tokens)

theorem isCut_tokensFrom (offset : Nat) (s : Text) : IsCut offset s (tokensFrom offset s) := by
  fun_induction tokensFrom offset s with
  | case1 offset => exact .nil offset
  | case2 offset c rest hskipped ih => exact .skip offset c rest _ hskipped ih
  | case3 offset c rest hkept kind n hlex text ih =>
    have hle := Lexeme.recognise_le_length c rest
    rw [hlex] at hle
    have hcut := IsCut.token offset c (rest.take n) (rest.drop n) kind _ hkept
      (by rw [List.take_append_drop, hlex, List.length_take_of_le hle]) ih
    rwa [List.take_append_drop] at hcut

/-- **The lexer cuts a text into tokens.** -/
theorem isCut_tokenize (s : Text) : IsCut 0 s (tokenize s) := isCut_tokensFrom 0 s

namespace IsCut

variable {offset : Nat} {s : Text} {tokens : List Token}

/-- **Where a token stands**: behind `before`, and it is what is recognised there. Induction on the cut. -/
theorem exists_append (h : IsCut offset s tokens) {t : Token} (ht : t ∈ tokens) :
    ∃ before c more behind, s = before ++ c :: (more ++ behind) ∧ t.text = c :: more ∧
      t.start = offset + Text.width before ∧ ¬ Lexeme.isSkipped c = true ∧
      Lexeme.recognise c (more ++ behind) = (t.kind, more.length) := by
  induction h with
  | nil => simp at ht
  | skip offset d rest tokens _ _ ih =>
    obtain ⟨before, c, more, behind, rfl, htext, hstart, hkept, hlex⟩ := ih ht
    refine ⟨d :: before, c, more, behind, rfl, htext, ?_, hkept, hlex⟩
    rw [hstart, Text.width_cons, Nat.add_assoc]
  | token offset d front rest kind tokens hkept hlex _ ih =>
    rcases List.mem_cons.mp ht with rfl | hmem
    · exact ⟨[], d, front, rest, rfl, rfl, rfl, hkept, hlex⟩
    · obtain ⟨before, c, more, behind, rfl, htext, hstart, hkept, hlex⟩ := ih hmem
      refine ⟨d :: front ++ before, c, more, behind, by simp, htext, ?_, hkept, hlex⟩
      rw [hstart, Text.width_append, Nat.add_assoc]

/-- **Each character is skipped or stands in a token.** Induction on the cut; a token has all characters from its
first one on that do not stand behind its last one. -/
theorem covers (h : IsCut offset s tokens) {before behind : Text} {c : Char} (hs : s = before ++ c :: behind) :
    Lexeme.isSkipped c = true ∨
      ∃ t ∈ tokens, t.start ≤ offset + Text.width before ∧ offset + Text.width before < t.stop := by
  induction h generalizing before with
  | nil => simp at hs
  | skip offset d rest tokens hskipped _ ih =>
    cases before with
    | nil =>
      obtain ⟨rfl, -⟩ := List.cons.inj hs
      exact Or.inl hskipped
    | cons first before =>
      obtain ⟨rfl, hrest⟩ := List.cons.inj hs
      rcases ih hrest with hskip | ⟨t, ht, hstart, hstop⟩
      · exact Or.inl hskip
      · rw [Nat.add_assoc, ← Text.width_cons] at hstart hstop
        exact Or.inr ⟨t, ht, hstart, hstop⟩
  | token offset d more rest kind tokens _ _ _ ih =>
    rw [← List.cons_append] at hs
    rcases List.append_eq_append_iff.mp hs with ⟨middle, rfl, hrest⟩ | ⟨middle, hmore, hrest⟩
    · -- the character stands behind the token
      rcases ih hrest with hskip | ⟨t, ht, hstart, hstop⟩
      · exact Or.inl hskip
      · rw [Nat.add_assoc, ← Text.width_append] at hstart hstop
        exact Or.inr ⟨t, List.mem_cons_of_mem _ ht, hstart, hstop⟩
    · cases middle with
      | nil =>
        -- the token ends right in front of the character
        rw [List.append_nil] at hmore
        rw [List.nil_append] at hrest
        rcases @ih [] hrest.symm with hskip | ⟨t, ht, hstart, hstop⟩
        · exact Or.inl hskip
        · rw [Text.width_nil, Nat.add_zero, hmore] at hstart hstop
          exact Or.inr ⟨t, List.mem_cons_of_mem _ ht, hstart, hstop⟩
      | cons first middle =>
        refine Or.inr ⟨_, List.mem_cons_self, Nat.le_add_right _ _, ?_⟩
        have hpos := first.utf8Size_pos
        rw [Token.stop]
        dsimp only
        rw [hmore, Text.width_append, Text.width_cons]
        omega

end IsCut

/-- **Tokens leave no gaps in code.** Each token of a text holds at least one character, stands in the text between
offsets that no character goes across, and is just what is recognised at its start, where no character is that the
lexer skips. The tokens are in order and apart from each other; and each character that stands in none of them is
one that the lexer skips. -/
theorem tokenize_leaves_no_gap (s : Text) :
    (∀ t ∈ tokenize s, t.start < t.stop ∧ t.stop ≤ Text.width s ∧ Text.IsOffset s t.start ∧
      Text.IsOffset s t.stop ∧ Text.slice s t.start t.stop = t.text ∧
      ∃ before c more behind, s = before ++ c :: (more ++ behind) ∧ t.text = c :: more ∧
        t.start = Text.width before ∧ c ∉ [' ', '\t', '\r', '\n', '\x0c', '\uFEFF'] ∧
        Lexeme.recognise c (more ++ behind) = (t.kind, more.length)) ∧
    (tokenize s).Pairwise (fun t u => t.start < u.start ∧ t.stop ≤ u.start) ∧
    ∀ before c behind, s = before ++ c :: behind →
      (∀ t ∈ tokenize s, ¬ (t.start ≤ Text.width before ∧ Text.width before < t.stop)) →
      c ∈ [' ', '\t', '\r', '\n', '\x0c', '\uFEFF'] := by
  have hcut := isCut_tokenize s
  have hpositive : ∀ t ∈ tokenize s, t.start < t.stop := by
    intro t ht
    obtain ⟨-, c, more, -, -, htext, -⟩ := hcut.exists_append ht
    have hpos := c.utf8Size_pos
    rw [Token.stop, htext, Text.width_cons]
    omega
  refine ⟨?_, ?_, ?_⟩
  · intro t ht
    obtain ⟨hstart, hstop, hslice⟩ := mem_tokenize ht
    obtain ⟨before, c, more, behind, hs, htext, hbefore, hkept, hlex⟩ := hcut.exists_append ht
    rw [Nat.zero_add] at hbefore
    refine ⟨hpositive t ht, ?_, hstart, hstop, hslice, before, c, more, behind, hs, htext, hbefore, ?_, hlex⟩
    · rw [Token.stop, hbefore, htext, hs, Text.width_append, Text.width_cons, Text.width_cons, Text.width_append]
      omega
    · rwa [← Lexeme.isSkipped_iff]
  · refine List.Pairwise.imp_of_mem ?_ (pairwise_tokenize s)
    intro t u ht _ hle
    exact ⟨Nat.lt_of_lt_of_le (hpositive t ht) hle, hle⟩
  · intro before c behind hs hout
    rw [← Lexeme.isSkipped_iff]
    refine (hcut.covers hs).resolve_right ?_
    rintro ⟨t, ht, hstart, hstop⟩
    rw [Nat.zero_add] at hstart hstop
    exact hout t ht ⟨hstart, hstop⟩

/-- A byte order mark, a raw literal with quotes in it, an at sign in front of a character that has only its first
byte from a letter, and a literal that is not closed. -/
def openEnds : Text := ["\uFEFF", "\"\"\"a\"b\"\"\"", " ", "@", "“", "\n", "\"\\", "\u00E9"].flatMap String.toList

/-- The second of three tokens ends behind the last byte of the quotation mark, and the space in front of it is in
none of them. -/
theorem tokenize_leaves_no_gap_openEnds :
    (tokenize openEnds).map (fun t => (t.kind, t.start, t.stop)) =
        [(.literal, 3, 12), (.operator, 13, 17), (.operator, 18, 22)] ∧
      (∃ t ∈ tokenize openEnds, t.stop = 17 ∧ Text.IsOffset openEnds 17 ∧
        Text.slice openEnds t.start 17 = ['@', '“']) ∧
      ∃ before behind, openEnds = before ++ ' ' :: behind ∧ Text.width before = 12 ∧
        (∀ t ∈ tokenize openEnds, ¬ (t.start ≤ Text.width before ∧ Text.width before < t.stop)) ∧
        ' ' ∈ [' ', '\t', '\r', '\n', '\x0c', '\uFEFF'] := by
  obtain ⟨htokens, -, hgaps⟩ := tokenize_leaves_no_gap openEnds
  have hmem : ⟨.operator, ['@', '“'], 13⟩ ∈ tokenize openEnds := by decide +kernel
  obtain ⟨-, -, -, hstop, hslice, -⟩ := htokens _ hmem
  have hout : ∀ t ∈ tokenize openEnds, ¬ (t.start ≤ Text.width ("\uFEFF\"\"\"a\"b\"\"\"".toList) ∧
      Text.width ("\uFEFF\"\"\"a\"b\"\"\"".toList) < t.stop) := by
    decide +kernel
  refine ⟨by decide +kernel, ⟨_, hmem, rfl, hstop, hslice⟩, _, _, rfl, rfl, hout, ?_⟩
  exact hgaps _ ' ' "@“\n\"\\\u00E9".toList (by decide) hout

end Excerpt
