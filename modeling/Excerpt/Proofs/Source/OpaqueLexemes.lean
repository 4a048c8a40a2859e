import Excerpt.Proofs.Source.BareLexemes
import Excerpt.Proofs.Source.Redaction
import Excerpt.Source.Marker

/-!
# Excerpt — lexemes that are read as one token

A comment, a preprocessor line or a literal is one token, whatever stands in it and whatever comes behind it. The
outline gets that token without its text, or nothing of it, so no brace, no parenthesis and no marker in it has a
meaning there.

* **`Text.splitAt?_append`** — what closes a lexeme is found where it was written, unless it stands further in front.
* **`Lexeme.IsEscaped`**, **`Lexeme.doubled`** — what is written between the quotes of a literal.
* **`Lexeme.IsOpaque`** — the lexemes that are meant, each with what can come behind it.
* **`Lexeme.recognise_of_isOpaque`** — how far such a lexeme is read, from one lemma for each of its forms.
* **`tokensFrom_opaque`** — it is one token, and the outline does not depend on what is in it.
-/

namespace Excerpt

namespace Text

/-- **The first occurrence is found**: `needle` behind a text, unless it begins within that text. -/
theorem splitAt?_append {needle : Text} (hne : needle ≠ []) {front : Text}
    (h : ¬ needle <:+: front ++ needle.dropLast) (back : Text) :
    splitAt? needle (front ++ (needle ++ back)) = some (front, back) := by
  induction front with
  | nil =>
    have hfound : needle.isPrefixOf? (needle ++ back) = some back :=
      List.isPrefixOf?_eq_some_iff_append_eq.mpr rfl
    obtain ⟨d, rest, rfl⟩ := List.exists_cons_of_ne_nil hne
    rw [List.nil_append, List.cons_append, splitAt?, ← List.cons_append, hfound]
  | cons c front ih =>
    have hnone : needle.isPrefixOf? (c :: (front ++ (needle ++ back))) = none := by
      rw [Option.eq_none_iff_forall_ne_some]
      intro after hafter
      have hstart : needle <+: c :: (front ++ (needle ++ back)) :=
        ⟨after, List.append_eq_of_isPrefixOf?_eq_some hafter⟩
      have hinner : c :: front ++ needle.dropLast <+: c :: (front ++ (needle ++ back)) := by
        rw [List.cons_append, List.cons_prefix_cons]
        refine ⟨rfl, List.prefix_append_right_inj front |>.mpr ?_⟩
        exact (List.dropLast_prefix needle).trans (List.prefix_append needle back)
      have hlength : needle.length ≤ (c :: front ++ needle.dropLast).length := by
        rw [List.length_append, List.length_dropLast, List.length_cons]
        omega
      exact h (List.prefix_of_prefix_length_le hstart hinner hlength).isInfix
    have hrest : ¬ needle <:+: front ++ needle.dropLast :=
      fun hmem => h (hmem.trans (List.suffix_cons c _).isInfix)
    rw [List.cons_append, splitAt?, hnone, ih hrest]
    rfl

/-- A run of a character does not begin within a text that holds no such run and ends with another character. -/
theorem not_infix_append_replicate {c : Char} {n k : Nat} (hk : k < n) {body : Text}
    (hlast : body.getLast? ≠ some c) (hfree : ¬ List.replicate n c <:+: body) :
    ¬ List.replicate n c <:+: body ++ List.replicate k c := by
  rw [List.infix_append_iff]
  rintro (hbody | hrun | ⟨a, b, hparts, ha, hb⟩)
  · exact hfree hbody
  · have hle := hrun.length_le
    rw [List.length_replicate, List.length_replicate] at hle
    omega
  · -- the part of the run within the text is not empty, so the text ends with the character
    have hle := hb.length_le
    have hlength := congrArg List.length hparts
    rw [List.length_append, List.length_replicate] at hlength
    rw [List.length_replicate] at hle
    have hne : a ≠ [] := by
      rintro rfl
      rw [List.length_nil] at hlength
      omega
    obtain ⟨t, rfl⟩ := ha
    refine hlast ?_
    rw [List.getLast?_append_of_ne_nil t hne, List.getLast?_eq_some_getLast hne]
    congr 1
    refine List.eq_of_mem_replicate (n := n) ?_
    rw [hparts]
    exact List.mem_append_left b (List.getLast_mem hne)

end Text

namespace Lexeme

/-! ## The lexemes -/

/-- What is written in a literal with escapes: characters other than quotes, backslashes and line feeds, and
backslashes that take along a character other than a line feed. -/
inductive IsEscaped : Text → Prop where
  | nil : IsEscaped []
  | plain {c : Char} {s : Text} (hquote : c ≠ '"') (hslash : c ≠ '\\') (hfeed : c ≠ '\n') (h : IsEscaped s) :
      IsEscaped (c :: s)
  | pair {c : Char} {s : Text} (hfeed : c ≠ '\n') (h : IsEscaped s) : IsEscaped ('\\' :: c :: s)

/-- The text as it is written in a verbatim literal, with each quote twice. -/
def doubled (s : Text) : Text := s.flatMap fun c => if c = '"' then ['"', '"'] else [c]

/-- Nothing comes behind the line, or a line feed. -/
def EndsLine (rest : Text) : Prop := rest = [] ∨ rest.head? = some '\n'

/-- **The lexemes that hide what is in them**: `IsOpaque kind lexeme rest` tells that `lexeme` is written like one of
the kind, and that `rest` can come behind it. -/
inductive IsOpaque : TokenKind → Text → Text → Prop where
  | lineComment {text rest : Text} (hline : '\n' ∉ text) (hrest : EndsLine rest) :
      IsOpaque .lineComment ('/' :: '/' :: text) rest
  | directive {blanks text rest : Text} {c : Char} (hblanks : ∀ b ∈ blanks, isIndent b = true)
      (hletter : c.isAlpha = true) (hline : '\n' ∉ text) (hrest : EndsLine rest) :
      IsOpaque .directive ('#' :: (blanks ++ c :: text)) rest
  | blockComment {body rest : Text} (hbody : ¬ ['*', '/'] <:+: body) :
      IsOpaque .blockComment ('/' :: '*' :: (body ++ ['*', '/'])) rest
  | string {body rest : Text} (interpolated : Bool) (hbody : IsEscaped body)
      (hempty : body = [] → rest.head? ≠ some '"') :
      IsOpaque .literal ((if interpolated then ['$'] else []) ++ '"' :: (body ++ ['"'])) rest
  | verbatim {signs text rest : Text} (hsigns : signs ∈ [['@'], ['$', '@'], ['@', '$']])
      (hrest : rest.head? ≠ some '"') : IsOpaque .literal (signs ++ '"' :: (doubled text ++ ['"'])) rest
  | raw {quotes : Nat} {body rest : Text} (dollars : Nat) (hquotes : 3 ≤ quotes) (hne : body ≠ [])
      (hfirst : body.head? ≠ some '"') (hlast : body.getLast? ≠ some '"')
      (hfree : ¬ List.replicate quotes '"' <:+: body) :
      IsOpaque .literal (List.replicate dollars '$' ++ (List.replicate quotes '"' ++
        (body ++ List.replicate quotes '"'))) rest

/-- The lexeme is what is read first where `rest` comes behind it. -/
def IsRead (kind : TokenKind) (lexeme rest : Text) : Prop :=
  ∃ c s, lexeme = c :: s ∧ isSkipped c = false ∧ recognise c (s ++ rest) = (kind, s.length)

/-! ## Comments and preprocessor lines -/

theorem isRead_lineComment {text rest : Text} (hline : '\n' ∉ text) (hrest : EndsLine rest) :
    IsRead .lineComment ('/' :: '/' :: text) rest := by
  refine ⟨'/', '/' :: text, rfl, by decide, ?_⟩
  show (TokenKind.lineComment, 1 + restOfLine (text ++ rest)) = _
  rw [restOfLine_append hline hrest, List.length_cons, Nat.add_comm]

theorem isRead_blockComment {body : Text} (hbody : ¬ ['*', '/'] <:+: body) (rest : Text) :
    IsRead .blockComment ('/' :: '*' :: (body ++ ['*', '/'])) rest := by
  refine ⟨'/', '*' :: (body ++ ['*', '/']), rfl, by decide, ?_⟩
  -- a star at the end of the body does not close the comment with the one behind it
  have hfree : ¬ ['*', '/'] <:+: body ++ ['*'] := by
    rw [List.infix_concat_iff, List.suffix_concat_iff]
    rintro ((hnil | ⟨t, ht, -⟩) | hinfix)
    · cases hnil
    · have hlast := congrArg List.getLast? ht
      rw [List.getLast?_concat] at hlast
      exact absurd (Option.some.inj hlast) (by decide)
    · exact hbody hinfix
  show afterSlash ('*' :: (body ++ ['*', '/']) ++ rest) = _
  rw [List.cons_append, List.append_assoc, afterSlash, Text.splitAt?_append (by decide) hfree]
  show (TokenKind.blockComment, 1 + body.length + 2) = _
  rw [List.length_cons, List.length_append, Nat.add_assoc, Nat.add_comm 1]
  rfl

theorem isIndent_of_isAlpha {c : Char} (h : c.isAlpha = true) : isIndent c = false := by
  cases hindent : isIndent c with
  | false => rfl
  | true =>
    simp only [isIndent, Bool.or_eq_true, decide_eq_true_eq] at hindent
    rcases hindent with rfl | rfl <;> exact absurd h (by decide)

theorem ne_lineFeed_of_isAlpha {c : Char} (h : c.isAlpha = true) : c ≠ '\n' := by
  rintro rfl
  exact absurd h (by decide)

theorem isRead_directive {blanks text rest : Text} {c : Char} (hblanks : ∀ b ∈ blanks, isIndent b = true)
    (hletter : c.isAlpha = true) (hline : '\n' ∉ text) (hrest : EndsLine rest) :
    IsRead .directive ('#' :: (blanks ++ c :: text)) rest := by
  have htaken : (blanks ++ c :: (text ++ rest)).takeWhile isIndent = blanks := by
    rw [List.takeWhile_append_of_pos hblanks, List.takeWhile_cons_of_neg, List.append_nil]
    rw [isIndent_of_isAlpha hletter]
    decide
  have hfree : '\n' ∉ blanks ++ c :: text := by
    rw [List.mem_append, List.mem_cons]
    rintro (hmem | hmem | hmem)
    · exact absurd (hblanks _ hmem) (by decide)
    · exact ne_lineFeed_of_isAlpha hletter hmem.symm
    · exact hline hmem
  refine ⟨'#', blanks ++ c :: text, rfl, by decide, ?_⟩
  show afterHash (blanks ++ c :: text ++ rest) = _
  unfold afterHash
  rw [List.append_assoc, List.cons_append, htaken]
  simp only [List.drop_left, hletter, if_true]
  rw [← List.cons_append, ← List.append_assoc, restOfLine_append hfree hrest]

/-! ## Literals with escapes -/

/-- Nothing that is escaped closes a literal. -/
theorem quotedRest_of_isEscaped {body : Text} (h : IsEscaped body) (rest : Text) :
    quotedRest '"' (body ++ '"' :: rest) = (body.length + 1, true) := by
  induction h with
  | nil => exact quotedRest_quote rest
  | plain hquote hslash hfeed h ih =>
    rw [List.cons_append, quotedRest_other hquote hfeed hslash, ih]
    rfl
  | pair hfeed h ih =>
    rw [List.cons_append, List.cons_append, quotedRest_escape (by decide) hfeed, ih]
    rfl

theorem stringRest_of_isEscaped {body : Text} (h : IsEscaped body) (rest : Text) :
    stringRest (body ++ '"' :: rest) = (.literal, body.length + 1) := by
  unfold stringRest
  rw [quotedRest_of_isEscaped h]
  rfl

/-- The literal does not begin like a raw one. -/
theorem ne_quotes_of_isEscaped {body rest : Text} (h : IsEscaped body) (hempty : body = [] → rest.head? ≠ some '"')
    (inner : Text) : body ++ '"' :: rest ≠ '"' :: '"' :: inner := by
  intro heq
  cases h with
  | nil => exact hempty rfl (by rw [(List.cons.inj heq).2]; rfl)
  | plain hquote => exact hquote (List.cons.inj heq).1
  | pair => exact absurd (List.cons.inj heq).1 (by decide)

/-- Behind dollar signs, which none follows. -/
theorem afterDollar_append (dollars : Nat) {s : Text} (hs : s.head? ≠ some '$') :
    afterDollar (List.replicate dollars '$' ++ s) = after dollars (behindDollars (dollars = 0) s) := by
  have hnone : s.takeWhile (· = '$') = [] := by
    cases s with
    | nil => rfl
    | cons c s =>
      rw [List.takeWhile_cons_of_neg]
      simpa using hs
  have htaken : (List.replicate dollars '$' ++ s).takeWhile (· = '$') = List.replicate dollars '$' := by
    rw [List.takeWhile_append_of_pos (by simp [List.mem_replicate]), hnone, List.append_nil]
  rw [afterDollar_eq, htaken, List.length_replicate]
  congr 2
  exact List.drop_left' List.length_replicate

theorem isRead_string {body rest : Text} (hbody : IsEscaped body) (hempty : body = [] → rest.head? ≠ some '"') :
    IsRead .literal ('"' :: (body ++ ['"'])) rest := by
  refine ⟨'"', body ++ ['"'], rfl, by decide, ?_⟩
  show afterQuote (body ++ ['"'] ++ rest) = _
  rw [List.append_assoc, List.singleton_append, afterQuote.eq_2 _ (ne_quotes_of_isEscaped hbody hempty),
    stringRest_of_isEscaped hbody, List.length_append]
  rfl

theorem isRead_interpolated {body rest : Text} (hbody : IsEscaped body)
    (hempty : body = [] → rest.head? ≠ some '"') : IsRead .literal ('$' :: '"' :: (body ++ ['"'])) rest := by
  have hdollar := afterDollar_append 0 (s := '"' :: (body ++ '"' :: rest)) (by simp)
  rw [List.replicate_zero, List.nil_append, behindDollars.eq_2 _ _ (ne_quotes_of_isEscaped hbody hempty),
    if_pos (by decide), stringRest_of_isEscaped hbody] at hdollar
  refine ⟨'$', '"' :: (body ++ ['"']), rfl, by decide, ?_⟩
  show afterDollar ('"' :: (body ++ ['"']) ++ rest) = _
  rw [List.cons_append, List.append_assoc, List.singleton_append, hdollar]
  simp only [after, List.length_cons, List.length_append, List.length_nil]
  congr 1
  omega

/-! ## Verbatim literals -/

theorem doubled_quote (s : Text) : doubled ('"' :: s) = '"' :: '"' :: doubled s := rfl

theorem doubled_cons {c : Char} (hc : c ≠ '"') (s : Text) : doubled (c :: s) = c :: doubled s := by
  unfold doubled
  rw [List.flatMap_cons, if_neg hc, List.singleton_append]

/-- No doubled quote closes a literal. -/
theorem verbatimClose?_doubled (text : Text) {rest : Text} (hrest : rest.head? ≠ some '"') :
    verbatimClose? (doubled text ++ '"' :: rest) = some ((doubled text).length + 1) := by
  induction text with
  | nil => exact verbatimClose?_quote hrest
  | cons c text ih =>
    by_cases hc : c = '"'
    · subst hc
      rw [doubled_quote, List.cons_append, List.cons_append, verbatimClose?, ih]
      rfl
    · rw [doubled_cons hc, List.cons_append, verbatimClose?_other hc, ih]
      rfl

theorem verbatimRest_doubled (text : Text) {rest : Text} (hrest : rest.head? ≠ some '"') :
    verbatimRest (doubled text ++ ['"'] ++ rest) = (.literal, (doubled text ++ ['"']).length) := by
  unfold verbatimRest
  rw [List.append_assoc, List.singleton_append, verbatimClose?_doubled text hrest]
  dsimp only
  rw [List.length_append]
  rfl

theorem isRead_verbatim (text : Text) {rest : Text} (hrest : rest.head? ≠ some '"') :
    IsRead .literal ('@' :: '"' :: (doubled text ++ ['"'])) rest := by
  refine ⟨'@', '"' :: (doubled text ++ ['"']), rfl, by decide, ?_⟩
  show after 1 (verbatimRest (doubled text ++ ['"'] ++ rest)) = _
  rw [verbatimRest_doubled text hrest, after, List.length_cons, Nat.add_comm]

theorem isRead_interpolatedVerbatim (text : Text) {rest : Text} (hrest : rest.head? ≠ some '"') :
    IsRead .literal ('@' :: '$' :: '"' :: (doubled text ++ ['"'])) rest := by
  refine ⟨'@', '$' :: '"' :: (doubled text ++ ['"']), rfl, by decide, ?_⟩
  show after 2 (verbatimRest (doubled text ++ ['"'] ++ rest)) = _
  rw [verbatimRest_doubled text hrest, after, Nat.add_comm]
  rfl

theorem isRead_verbatimInterpolated (text : Text) {rest : Text} (hrest : rest.head? ≠ some '"') :
    IsRead .literal ('$' :: '@' :: '"' :: (doubled text ++ ['"'])) rest := by
  refine ⟨'$', '@' :: '"' :: (doubled text ++ ['"']), rfl, by decide, ?_⟩
  have hdollar := afterDollar_append 0 (s := '@' :: '"' :: (doubled text ++ ['"'] ++ rest)) (by simp)
  rw [List.replicate_zero, List.nil_append] at hdollar
  show afterDollar ('@' :: '"' :: (doubled text ++ ['"'] ++ rest)) = _
  rw [hdollar]
  show after 0 (after 2 (verbatimRest (doubled text ++ ['"'] ++ rest))) = _
  rw [verbatimRest_doubled text hrest, after, after, Nat.zero_add, Nat.add_comm]
  rfl

/-! ## Raw literals -/

/-- A raw literal ends where its quotes are closed, also where more quotes come behind it. -/
theorem rawRest_append (more : Nat) {body : Text} (hne : body ≠ []) (hfirst : body.head? ≠ some '"')
    (hlast : body.getLast? ≠ some '"') (hfree : ¬ List.replicate (more + 3) '"' <:+: body) (rest : Text) :
    rawRest (List.replicate more '"' ++ (body ++ List.replicate (more + 3) '"') ++ rest) =
      (.literal, (List.replicate more '"' ++ (body ++ List.replicate (more + 3) '"')).length) := by
  have htaken : ∀ back : Text, (List.replicate more '"' ++ (body ++ back)).takeWhile (· = '"') =
      List.replicate more '"' := by
    intro back
    obtain ⟨c, body, rfl⟩ := List.exists_cons_of_ne_nil hne
    rw [List.takeWhile_append_of_pos (by simp [List.mem_replicate]), List.cons_append,
      List.takeWhile_cons_of_neg (by simpa using hfirst), List.append_nil]
  have hclosing : ¬ List.replicate (more + 3) '"' <:+: body ++ (List.replicate (more + 3) '"').dropLast := by
    rw [List.dropLast_replicate]
    exact Text.not_infix_append_replicate (by omega) hlast hfree
  unfold rawRest
  rw [List.append_assoc, List.append_assoc, htaken]
  simp only [List.length_replicate]
  rw [List.drop_left' List.length_replicate, Text.splitAt?_append (by simp) hclosing]
  simp only [List.length_append, List.length_replicate, Nat.add_assoc]

theorem isRead_raw (more : Nat) {body : Text} (hne : body ≠ []) (hfirst : body.head? ≠ some '"')
    (hlast : body.getLast? ≠ some '"') (hfree : ¬ List.replicate (more + 3) '"' <:+: body) (dollars : Nat)
    (rest : Text) :
    IsRead .literal (List.replicate dollars '$' ++ (List.replicate (more + 3) '"' ++
      (body ++ List.replicate (more + 3) '"'))) rest := by
  have hraw := rawRest_append more hne hfirst hlast hfree rest
  cases dollars with
  | zero =>
    refine ⟨'"', '"' :: '"' :: (List.replicate more '"' ++ (body ++ List.replicate (more + 3) '"')), rfl,
      by decide, ?_⟩
    show after 2 (rawRest (List.replicate more '"' ++ (body ++ List.replicate (more + 3) '"') ++ rest)) = _
    rw [hraw, after, Nat.add_comm]
    rfl
  | succ dollars =>
    refine ⟨'$', List.replicate dollars '$' ++ ('"' :: '"' :: '"' ::
      (List.replicate more '"' ++ (body ++ List.replicate (more + 3) '"'))), rfl, by decide, ?_⟩
    show afterDollar _ = _
    rw [List.append_assoc, afterDollar_append dollars (by simp)]
    show after dollars (after 3 (rawRest (List.replicate more '"' ++
      (body ++ List.replicate (more + 3) '"') ++ rest))) = _
    rw [hraw, after, after, @List.length_append _ (List.replicate dollars '$'), List.length_replicate,
      Nat.add_comm 3]
    rfl

/-! ## All lexemes -/

/-- **What is written like an opaque lexeme is read as one.** -/
theorem isRead_of_isOpaque {kind : TokenKind} {lexeme rest : Text} (h : IsOpaque kind lexeme rest) :
    IsRead kind lexeme rest := by
  cases h with
  | lineComment hline hrest => exact isRead_lineComment hline hrest
  | directive hblanks hletter hline hrest => exact isRead_directive hblanks hletter hline hrest
  | blockComment hbody => exact isRead_blockComment hbody rest
  | string interpolated hbody hempty =>
    cases interpolated with
    | false => exact isRead_string hbody hempty
    | true => exact isRead_interpolated hbody hempty
  | verbatim hsigns hrest =>
    simp only [List.mem_cons, List.not_mem_nil, or_false] at hsigns
    rcases hsigns with rfl | rfl | rfl
    · exact isRead_verbatim _ hrest
    · exact isRead_verbatimInterpolated _ hrest
    · exact isRead_interpolatedVerbatim _ hrest
  | raw dollars hquotes hne hfirst hlast hfree =>
    obtain ⟨more, rfl⟩ := Nat.exists_eq_add_of_le' hquotes
    exact isRead_raw more hne hfirst hlast hfree dollars rest

end Lexeme

open Lexeme (IsOpaque)

variable {kind : TokenKind} {lexeme rest : Text}

theorem tokensFrom_of_isRead (h : Lexeme.IsRead kind lexeme rest) (offset : Nat) :
    tokensFrom offset (lexeme ++ rest) =
      ⟨kind, lexeme, offset⟩ :: tokensFrom (offset + Text.width lexeme) rest := by
  obtain ⟨c, s, rfl, hskipped, hread⟩ := h
  rw [List.cons_append, tokensFrom_cons_of_not_skipped (by rw [hskipped]; decide) offset _ hread, List.take_left,
    List.drop_left]

/-- The code of a text is the same wherever the text starts. -/
theorem codeOf_tokensFrom (offset : Nat) (s : Text) : codeOf (tokensFrom offset s) = codeOf (tokenize s) := by
  have hshifted : tokensFrom offset s = (tokensFrom 0 s).map (Token.shifted offset) := by
    rw [← tokensFrom_add, Nat.zero_add]
  rw [hshifted, tokenize, codeOf, List.filter_map, List.map_map]
  rfl

theorem codeOf_cons (t : Token) (tokens : List Token) :
    codeOf (t :: tokens) = (if t.kind.isTrivia then [] else [⟨t.kind, t.text⟩]) ++ codeOf tokens := by
  unfold codeOf
  rw [List.filter_cons]
  cases t.kind.isTrivia <;> rfl

/-- The code of a text that begins with an opaque lexeme: its token, or nothing, and the code of what follows it. -/
theorem codeOf_tokensFrom_of_isOpaque (h : IsOpaque kind lexeme rest) (offset : Nat) :
    codeOf (tokensFrom offset (lexeme ++ rest)) =
      (if kind.isTrivia then [] else [⟨kind, lexeme⟩]) ++ codeOf (tokenize rest) := by
  rw [tokensFrom_of_isRead (Lexeme.isRead_of_isOpaque h), codeOf_cons, codeOf_tokensFrom]

theorem Lexeme.IsOpaque.kind_ne_ident (h : IsOpaque kind lexeme rest) : kind ≠ .ident := by
  cases h <;> simp

/-- The code is the same for lexemes of one kind, but for what no outline depends on. -/
theorem map_redact_codeOf_of_isOpaque {other : Text} (h : IsOpaque kind lexeme rest)
    (hother : IsOpaque kind other rest) :
    (codeOf (tokenize (lexeme ++ rest))).map Code.redact = (codeOf (tokenize (other ++ rest))).map Code.redact := by
  have hredact : ∀ text : Text, (Code.mk kind text).redact = ⟨kind, []⟩ :=
    fun text => if_neg h.kind_ne_ident
  unfold tokenize
  rw [codeOf_tokensFrom_of_isOpaque h, codeOf_tokensFrom_of_isOpaque hother]
  split
  · rfl
  · rw [List.singleton_append, List.singleton_append, List.map_cons, List.map_cons, hredact, hredact]

/-- The declarations in the code with what they stand in, as far as a name of an excerpt tells. -/
def declaredIn (code : List Code) : Option (List OutlineEntry) :=
  (Outline.read? code).map fun nodes => (OutlineNode.entriesAll none 0 nodes).map OutlineEntry.redact

/-- **An opaque lexeme is one token**, and what follows it is read as if it stood alone. All that the outline gets of
the lexeme is the token of a literal, and what is declared does not depend on what is in it. A literal or a block
comment is no marker. -/
theorem tokensFrom_opaque (h : IsOpaque kind lexeme rest) (offset : Nat) :
    tokensFrom offset (lexeme ++ rest) =
        ⟨kind, lexeme, offset⟩ :: tokensFrom (offset + Text.width lexeme) rest ∧
      codeOf (tokensFrom offset (lexeme ++ rest)) =
        (if kind.isTrivia then [] else [⟨kind, lexeme⟩]) ++ codeOf (tokenize rest) ∧
      (∀ other, IsOpaque kind other rest → ∀ code,
        declaredIn (code ++ codeOf (tokenize (lexeme ++ rest))) =
          declaredIn (code ++ codeOf (tokenize (other ++ rest)))) ∧
      (kind = .literal ∨ kind = .blockComment →
        (tokensFrom offset (lexeme ++ rest)).filterMap Event.ofToken? =
          (tokensFrom (offset + Text.width lexeme) rest).filterMap Event.ofToken?) := by
  have htokens := tokensFrom_of_isRead (Lexeme.isRead_of_isOpaque h) offset
  refine ⟨htokens, codeOf_tokensFrom_of_isOpaque h offset, ?_, ?_⟩
  · intro other hother code
    apply Outline.map_entriesAll_read?_redact
    rw [List.map_append, List.map_append, map_redact_codeOf_of_isOpaque h hother]
  · intro hkind
    have hnone : Event.ofToken? ⟨kind, lexeme, offset⟩ = none := by
      rcases hkind with rfl | rfl <;> rfl
    rw [htokens, List.filterMap_cons_none hnone]

/-- A raw literal with quotes, brackets and what would be comments and markers elsewhere. -/
def bracketsInLiteral : Text := "$$\"\"\"\n\x7b\x7b( // begin-snippet: \"\"A\n#region B */ \x7d\n\"\"\"".toList

/-- The literal is one token in front of a quote and a closing brace, and the brace is code. -/
theorem tokensFrom_opaque_bracketsInLiteral :
    let rest := "\";\"\x7d".toList
    IsOpaque .literal bracketsInLiteral rest ∧
      tokensFrom 7 (bracketsInLiteral ++ rest) =
        [⟨.literal, bracketsInLiteral, 7⟩, ⟨.literal, "\";\"".toList, 57⟩, ⟨.braceClose, ['\x7d'], 60⟩] ∧
      codeOf (tokensFrom 7 (bracketsInLiteral ++ rest)) =
        [⟨.literal, bracketsInLiteral⟩, ⟨.literal, "\";\"".toList⟩, ⟨.braceClose, ['\x7d']⟩] ∧
      (tokensFrom 7 (bracketsInLiteral ++ rest)).filterMap Event.ofToken? = [] := by
  intro rest
  have hlexeme : IsOpaque .literal bracketsInLiteral rest :=
    @IsOpaque.raw 3 "\n\x7b\x7b( // begin-snippet: \"\"A\n#region B */ \x7d\n".toList rest 2 (by decide) (by decide)
      (by decide) (by decide) (by decide +kernel)
  obtain ⟨htokens, hcode, -, hmarkers⟩ := tokensFrom_opaque hlexeme 7
  refine ⟨hlexeme, ?_, ?_, ?_⟩
  · rw [htokens]
    decide +kernel
  · rw [hcode]
    decide +kernel
  · rw [hmarkers (Or.inl rfl)]
    decide +kernel

end Excerpt
