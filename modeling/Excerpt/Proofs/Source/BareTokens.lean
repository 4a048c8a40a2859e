import Excerpt.Proofs.Source.BareLexemes

/-!
# Excerpt — tokens without carriage returns

The tokens of a text without carriage returns are those of the text, without them. What was taken away from a
token is known from its kind: names hold no carriage return, comments and preprocessor lines hold one at their
end at most, and a token across the end of a line does not end with one.

* **`Lexeme.IsTidy`**, **`Lexeme.isTidy_recognise`** — what does not hold a carriage return, and what does not
  end with one, from one lemma for each way in which a token can begin.
* **`tokenize_bare`** — the tokens of the text without carriage returns.
* **`Token.IsTidy`**, **`isTidy_of_mem_tokenize`** — what is known of each token.
-/

namespace Excerpt

namespace Lexeme

open Text (ReturnsEndLines)

/-! ## What tokens end with -/

/-- A lexeme across the end of a line does not end with a carriage return, names hold none, and comments
and preprocessor lines stay on their line; `s` is what follows the first character. -/
structure IsTidy (s : Text) (r : TokenKind × Nat) : Prop where
  lineEnd : '\n' ∈ s.take r.2 → (s.take r.2).getLast? ≠ some '\r'
  ident : r.1 = .ident → '\r' ∉ s.take r.2
  line : r.1 = .lineComment ∨ r.1 = .directive → '\n' ∉ s.take r.2

namespace IsTidy

variable {s : Text} {kind : TokenKind} {n : Nat}

theorem of_notMem (hfeed : '\n' ∉ s.take n) (hident : kind ≠ .ident) : IsTidy s (kind, n) :=
  ⟨fun h => absurd h hfeed, fun h => absurd h hident, fun _ => hfeed⟩

theorem zero (s : Text) (kind : TokenKind) : IsTidy s (kind, 0) := ⟨by simp, by simp, by simp⟩

theorem of_getLast? (hlast : (s.take n).getLast? ≠ some '\r') (hident : kind ≠ .ident)
    (hcomment : kind ≠ .lineComment) (hdirective : kind ≠ .directive) : IsTidy s (kind, n) :=
  ⟨fun _ => hlast, fun h => absurd h hident,
    fun h => absurd h (not_or.mpr ⟨hcomment, hdirective⟩)⟩

/-- Characters in front do not matter that are neither carriage returns nor line feeds. -/
theorem after {a : Text} (hreturn : '\r' ∉ a) (hfeed : '\n' ∉ a) {r : TokenKind × Nat}
    (h : IsTidy s r) : IsTidy (a ++ s) (Lexeme.after a.length r) := by
  have htaken : (a ++ s).take (Lexeme.after a.length r).2 = a ++ s.take r.2 :=
    List.take_length_add_append _
  constructor
  · rw [htaken]
    intro hmem
    have hrest := (List.mem_append.mp hmem).resolve_left hfeed
    rw [List.getLast?_append_of_ne_nil a (List.ne_nil_of_mem hrest)]
    exact h.lineEnd hrest
  · rw [htaken, List.mem_append, not_or]
    exact fun hkind => ⟨hreturn, h.ident hkind⟩
  · rw [htaken, List.mem_append, not_or]
    exact fun hkind => ⟨hfeed, h.line hkind⟩

end IsTidy

theorem take_length_takeWhile (p : Char → Bool) (s : Text) :
    s.take (s.takeWhile p).length = s.takeWhile p :=
  (List.prefix_iff_eq_take.mp (List.takeWhile_prefix p)).symm

theorem notMem_take_quotedRest {quote : Char} (hquote : quote ≠ '\n') (s : Text) :
    '\n' ∉ s.take (quotedRest quote s).1 := by
  fun_induction quotedRest quote s with
  | case1 => simp
  | case2 s => simpa using Ne.symm hquote
  | case3 => simp
  | case4 => simp
  | case5 => simp
  | case6 d s hd n closed heq _ _ ih =>
    rw [heq] at ih
    simp only [List.take_succ_cons, List.mem_cons, not_or]
    exact ⟨by decide, Ne.symm hd, ih⟩
  | case7 c s hne hc hslash n closed heq ih =>
    rw [heq] at ih
    simp only [List.take_succ_cons, List.mem_cons, not_or]
    exact ⟨Ne.symm hc, ih⟩

theorem literalKind_ne (closed : Bool) :
    literalKind closed ≠ .ident ∧ literalKind closed ≠ .lineComment ∧
      literalKind closed ≠ .directive := by
  cases closed <;> simp [literalKind]

theorem isTidy_stringRest (s : Text) : IsTidy s (stringRest s) :=
  .of_notMem (notMem_take_quotedRest (by decide) s) (literalKind_ne _).1

theorem isTidy_characterRest (s : Text) : IsTidy s (characterRest s) := by
  unfold characterRest
  split
  · exact .of_notMem (by simp) (by simp)
  · exact .of_notMem (notMem_take_quotedRest (by decide) _) (literalKind_ne _).1

theorem getLast?_take_verbatimClose? {s : Text} {n : Nat} (h : verbatimClose? s = some n) :
    (s.take n).getLast? = some '"' := by
  fun_induction verbatimClose? s generalizing n with
  | case1 => cases h
  | case2 s ih =>
    obtain rfl := Option.some.inj h
    cases hrest : verbatimClose? s with
    | none => rfl
    | some m =>
      have hlast := ih hrest
      have hne : s.take m ≠ [] := by
        rintro hnil
        rw [hnil] at hlast
        cases hlast
      simp only [List.take_succ_cons]
      rwa [List.getLast?_cons_of_ne_nil (by simp), List.getLast?_cons_of_ne_nil hne]
  | case3 s hs =>
    obtain rfl := Option.some.inj h
    rfl
  | case4 c s _ hc ih =>
    obtain ⟨m, hm, rfl⟩ := Option.map_eq_some_iff.mp h
    have hlast := ih hm
    have hne : s.take m ≠ [] := by
      rintro hnil
      rw [hnil] at hlast
      cases hlast
    rwa [List.take_succ_cons, List.getLast?_cons_of_ne_nil hne]

theorem getLast?_ne_return {s : Text} (h : ReturnsEndLines s) : s.getLast? ≠ some '\r' := by
  intro hlast
  obtain ⟨front, rfl⟩ := List.getLast?_eq_some_iff.mp hlast
  cases h front [] rfl

theorem isTidy_verbatimRest {s : Text} (h : ReturnsEndLines s) : IsTidy s (verbatimRest s) := by
  unfold verbatimRest
  split
  · next n hclose =>
    refine .of_getLast? ?_ (by simp) (by simp) (by simp)
    rw [getLast?_take_verbatimClose? hclose]
    decide
  · refine .of_getLast? ?_ (by simp) (by simp) (by simp)
    rw [List.take_length]
    exact getLast?_ne_return h

theorem isTidy_rawRest (s : Text) : IsTidy s (rawRest s) := by
  unfold rawRest
  dsimp only
  split
  · next body back hfound =>
    refine .of_getLast? ?_ (by simp) (by simp) (by simp)
    have hs : s = s.takeWhile (· = '"') ++ (body ++ (List.replicate
        ((s.takeWhile (· = '"')).length + 3) '"' ++ back)) := by
      rw [← Text.append_of_splitAt?_eq_some hfound, drop_length_takeWhile,
        List.takeWhile_append_dropWhile]
    generalize s.takeWhile (· = '"') = quotes at hs ⊢
    have hclosing : (List.replicate (quotes.length + 3) '"' ++ back).take (quotes.length + 3) =
        List.replicate (quotes.length + 3) '"' :=
      List.take_left' List.length_replicate
    rw [hs, Nat.add_assoc, List.take_length_add_append, List.take_length_add_append, hclosing,
      List.getLast?_append_of_ne_nil _ (by simp), List.getLast?_append_of_ne_nil _ (by simp),
      List.getLast?_replicate]
    simp
  · refine .of_notMem ?_ (by simp)
    rw [take_length_takeWhile]
    exact Text.notMem_takeWhile (by decide) s

theorem isTidy_afterQuote (s : Text) : IsTidy s (afterQuote s) := by
  unfold afterQuote
  split
  · next s => exact .after (a := ['"', '"']) (by decide) (by decide) (isTidy_rawRest s)
  · exact isTidy_stringRest _

theorem notMem_take_restOfLine (s : Text) : '\n' ∉ s.take (restOfLine s) := by
  rw [restOfLine, take_length_takeWhile]
  exact Text.notMem_takeWhile (by decide) s

theorem isTidy_afterSlash (s : Text) : IsTidy s (afterSlash s) := by
  unfold afterSlash
  split
  · next s =>
    refine .of_notMem ?_ (by simp)
    rw [Nat.add_comm, List.take_succ_cons]
    simpa using notMem_take_restOfLine s
  · next s =>
    split
    · next body back hfound =>
      refine .of_getLast? ?_ (by simp) (by simp) (by simp)
      have htaken : ('*' :: s).take (1 + body.length + 2) = '*' :: (body ++ ['*', '/']) := by
        rw [Text.append_of_splitAt?_eq_some hfound, Nat.add_assoc, Nat.add_comm 1, List.take_succ_cons,
          List.take_length_add_append]
        rfl
      rw [htaken, List.getLast?_cons_of_ne_nil (by simp), List.getLast?_append_of_ne_nil _ (by simp)]
      simp
    · exact .of_notMem (by simp) (by simp)
  · exact .of_notMem (by simp) (by simp)
  · exact .of_notMem (by simp) (by simp)

theorem isTidy_afterHash (s : Text) : IsTidy s (afterHash s) := by
  have hblanks : '\n' ∉ s.take (s.takeWhile isIndent).length := by
    rw [take_length_takeWhile]
    exact Text.notMem_takeWhile (by decide) s
  unfold afterHash
  dsimp only
  split
  · split
    · exact .of_notMem (notMem_take_restOfLine s) (by simp)
    · exact .of_notMem hblanks (by simp)
  · exact .of_notMem hblanks (by simp)

theorem isTidy_behindDollars (single : Bool) {s : Text} (h : ReturnsEndLines s) :
    IsTidy s (behindDollars single s) := by
  unfold behindDollars
  split
  · next s => exact .after (a := ['"', '"', '"']) (by decide) (by decide) (isTidy_rawRest s)
  · next s _ =>
    split
    · exact .after (a := ['"']) (by decide) (by decide) (isTidy_stringRest s)
    · refine .of_notMem ?_ (by simp)
      rw [Nat.add_comm, List.take_succ_cons, take_length_takeWhile]
      simpa using Text.notMem_takeWhile (p := fun c => c = '"') (by decide) s
  · split
    · split
      · next s => exact .after (a := ['@', '"']) (by decide) (by decide) (isTidy_verbatimRest h.tail.tail)
      · exact .of_notMem (by simp) (by simp)
    · exact .of_notMem (by simp) (by simp)
  · exact .of_notMem (by simp) (by simp)

theorem isTidy_afterDollar {s : Text} (h : ReturnsEndLines s) : IsTidy s (afterDollar s) := by
  have hs : s = s.takeWhile (· = '$') ++ s.drop (s.takeWhile (· = '$')).length := by
    rw [drop_length_takeWhile, List.takeWhile_append_dropWhile]
  have htidy := (isTidy_behindDollars ((s.takeWhile (· = '$')).length = 0)
    (h.drop (s.takeWhile (· = '$')).length)).after
      (Text.notMem_takeWhile (p := fun c => c = '$') (by decide) s)
      (Text.notMem_takeWhile (by decide) s)
  rw [← hs] at htidy
  rwa [afterDollar_eq]

theorem isTidy_ident (s : Text) : IsTidy s (.ident, (s.takeWhile isNamePart).length) := by
  have hnone : ∀ {d}, isNamePart d = false → d ∉ s.take (s.takeWhile isNamePart).length := by
    intro d hd
    rw [take_length_takeWhile]
    exact Text.notMem_takeWhile hd s
  have hfeed := hnone isNamePart_lineFeed
  exact ⟨fun hmem => absurd hmem hfeed, fun _ => hnone (by decide), fun _ => hfeed⟩

theorem isTidy_afterAt {s : Text} (h : ReturnsEndLines s) : IsTidy s (afterAt s) := by
  unfold afterAt
  split
  · next s => exact .after (a := ['"']) (by decide) (by decide) (isTidy_verbatimRest h.tail)
  · next s => exact .after (a := ['$', '"']) (by decide) (by decide) (isTidy_verbatimRest h.tail.tail)
  · exact .of_notMem (by simp) (by simp)
  · next c s _ _ _ =>
    split
    · next hname =>
      have hc : ∀ {d}, isNameStart d = false → d ∉ [c] := by
        intro d hd hmem
        rw [← List.mem_singleton.mp hmem, hd] at hname
        cases hname
      exact .after (hc isNameStart_return) (hc isNameStart_lineFeed) (isTidy_ident s)
    · split
      · next hletter =>
        have hc : c ≠ '\n' := by
          rintro rfl
          rw [beginsLikeLetter_lineFeed] at hletter
          cases hletter
        exact .of_notMem (by simpa using Ne.symm hc) (by simp)
      · exact .zero _ _
  · exact .zero _ _

theorem isTidy_afterDigit (s : Text) : IsTidy s (afterDigit s) := by
  have hnone : ∀ t : Text, '\n' ∉ t.take (t.takeWhile isNumberPart).length := by
    intro t
    rw [take_length_takeWhile]
    exact Text.notMem_takeWhile (by decide) t
  have hs : s = s.takeWhile isNumberPart ++ s.drop (s.takeWhile isNumberPart).length := by
    rw [drop_length_takeWhile, List.takeWhile_append_dropWhile]
  unfold afterDigit
  dsimp only
  split
  · next d rest heq =>
    split
    · next hd =>
      refine .of_notMem ?_ (by simp)
      rw [heq] at hs
      have htaken : s.take ((s.takeWhile isNumberPart).length + 2 +
          (rest.takeWhile isNumberPart).length) = s.takeWhile isNumberPart ++ '.' :: d ::
            rest.take (rest.takeWhile isNumberPart).length := by
        have hcut : ∀ m, (s.takeWhile isNumberPart ++ '.' :: d :: rest).take
            ((s.takeWhile isNumberPart).length + m) = s.takeWhile isNumberPart ++
              ('.' :: d :: rest).take m := fun m => List.take_length_add_append m
        have hboth := hcut (2 + (rest.takeWhile isNumberPart).length)
        rwa [← hs, Nat.add_comm 2, List.take_succ_cons, List.take_succ_cons, Nat.add_comm _ 2,
          ← Nat.add_assoc] at hboth
      rw [htaken]
      simp only [List.mem_append, List.mem_cons, not_or]
      refine ⟨Text.notMem_takeWhile (by decide) s, by decide, ?_, hnone rest⟩
      rintro rfl
      exact absurd hd (by decide)
    · exact .of_notMem (hnone s) (by simp)
  · exact .of_notMem (hnone s) (by simp)

theorem isTidy_afterOther (c : Char) (s : Text) : IsTidy s (afterOther c s) := by
  unfold afterOther
  split
  · next harrow =>
    simp only [Bool.and_eq_true, decide_eq_true_eq] at harrow
    obtain ⟨rest, rfl⟩ := List.head?_eq_some_iff.mp harrow.2
    exact .of_notMem (by simp) (by simp)
  · split
    · next operator hfound =>
      have hprefixed := List.find?_some hfound
      have hstart : operator <+: c :: s := List.isPrefixOf_iff_prefix.mp hprefixed
      have hfeed := noLineFeed_compoundOperators operator (List.mem_of_find?_eq_some hfound)
      cases operator with
      | nil => exact .zero _ _
      | cons d rest =>
        have hrest := (List.cons_prefix_cons.mp hstart).2
        refine .of_notMem ?_ (by simp)
        rw [List.length_cons, Nat.add_sub_cancel, ← List.prefix_iff_eq_take.mp hrest]
        exact fun hmem => hfeed (List.mem_cons_of_mem d hmem)
    · exact .zero _ _

theorem isTidy_recognise (c : Char) {s : Text} (h : ReturnsEndLines s) : IsTidy s (recognise c s) := by
  apply recognise_cases c (P := fun f => IsTidy s (f s))
  case slash => exact fun _ => isTidy_afterSlash s
  case hash => exact fun _ => isTidy_afterHash s
  case quote => exact fun _ => isTidy_afterQuote s
  case apostrophe => exact fun _ => isTidy_characterRest s
  case dollar => exact fun _ => isTidy_afterDollar h
  case sign => exact fun _ => isTidy_afterAt h
  case digit => exact fun _ => isTidy_afterDigit s
  case name => exact fun _ => isTidy_ident s
  case other => exact isTidy_afterOther c s

end Lexeme

/-! ## The tokens -/

/-- The token without carriage returns, in a text without them. -/
def Token.bare (s : Text) (t : Token) : Token :=
  ⟨t.kind, Text.bare t.text, Text.bareOffset s t.start⟩

@[simp] theorem Token.kind_bare (s : Text) (t : Token) : (t.bare s).kind = t.kind := rfl

@[simp] theorem Token.text_bare (s : Text) (t : Token) : (t.bare s).text = Text.bare t.text := rfl

@[simp] theorem Token.start_bare (s : Text) (t : Token) :
    (t.bare s).start = Text.bareOffset s t.start := rfl

/-- The tokens from a place on. Induction on what is left of the text. -/
theorem tokensFrom_bare (p : Text) {s : Text} (h : Text.ReturnsEndLines s) :
    tokensFrom (Text.width (Text.bare p)) (Text.bare s) =
      (tokensFrom (Text.width p) s).map (Token.bare (p ++ s)) := by
  match s with
  | [] => rw [Text.bare_nil, tokensFrom, tokensFrom, List.map_nil]
  | c :: s =>
    by_cases hskipped : Lexeme.isSkipped c = true
    · -- a skipped character is in no token, whether it stays or goes
      have hrest := tokensFrom_bare (p ++ [c]) h.tail
      rw [Text.width_append, Text.bare_append, Text.width_append, List.append_assoc] at hrest
      rw [tokensFrom_cons_of_skipped hskipped]
      by_cases hc : c = '\r'
      · rw [hc] at hrest ⊢
        exact hrest
      · rw [Text.bare_cons hc] at hrest ⊢
        rw [tokensFrom_cons_of_skipped hskipped]
        exact hrest
    · have hc : c ≠ '\r' := by
        rintro rfl
        exact hskipped (by decide)
      rcases hlex : Lexeme.recognise c s with ⟨kind, n⟩
      have hbare := Lexeme.recognise_bare hc h
      rw [hlex] at hbare
      have hrest := tokensFrom_bare (p ++ c :: s.take n) (h.tail.drop n)
      have htext : p ++ c :: s.take n ++ s.drop n = p ++ c :: s := by
        rw [List.append_assoc, List.cons_append, List.take_append_drop]
      rw [htext, Text.width_append, Text.bare_append, Text.width_append, Text.bare_cons hc] at hrest
      rw [Text.bare_cons hc, tokensFrom_cons_of_not_skipped hskipped _ _ hbare,
        tokensFrom_cons_of_not_skipped hskipped _ _ hlex, List.map_cons, Text.take_bareLength,
        Text.drop_bareLength, hrest, Token.bare, Text.bareOffset_width, Text.bare_cons hc]
termination_by s.length
decreasing_by all_goals simp; try omega

/-- **The tokens of the text without carriage returns** are its tokens without them. -/
theorem tokenize_bare {s : Text} (h : Text.ReturnsEndLines s) :
    tokenize (Text.bare s) = (tokenize s).map (Token.bare s) := tokensFrom_bare [] h

/-- A token begins with a character that is not skipped. If it goes across the end of a line, it does not end
with a carriage return; names hold none, and comments and preprocessor lines stay on their line. -/
structure Token.IsTidy (t : Token) : Prop where
  begins : ∃ c rest, t.text = c :: rest ∧ Lexeme.isSkipped c = false
  lineEnd : '\n' ∈ t.text → t.text.getLast? ≠ some '\r'
  ident : t.kind = .ident → '\r' ∉ t.text
  line : t.kind = .lineComment ∨ t.kind = .directive → '\n' ∉ t.text

theorem isTidy_of_mem_tokensFrom {offset : Nat} {s : Text} (h : Text.ReturnsEndLines s) {t : Token}
    (ht : t ∈ tokensFrom offset s) : t.IsTidy := by
  fun_induction tokensFrom offset s with
  | case1 => cases ht
  | case2 offset c rest _ ih => exact ih h.tail ht
  | case3 offset c rest hskipped kind n hlex text ih =>
    rcases List.mem_cons.mp ht with rfl | hmem
    · have htidy := Lexeme.isTidy_recognise c h.tail
      rw [hlex] at htidy
      have hreturn : '\r' ≠ c := by
        rintro rfl
        exact hskipped (by decide)
      have hfeed : '\n' ≠ c := by
        rintro rfl
        exact hskipped (by decide)
      constructor
      · exact ⟨c, _, rfl, Bool.eq_false_iff.mpr hskipped⟩
      · intro hmem
        have hrest := List.mem_of_ne_of_mem hfeed hmem
        show (c :: rest.take n).getLast? ≠ some '\r'
        rw [List.getLast?_cons_of_ne_nil (List.ne_nil_of_mem hrest)]
        exact htidy.lineEnd hrest
      · exact fun hkind => List.not_mem_cons_of_ne_of_not_mem hreturn (htidy.ident hkind)
      · exact fun hkind => List.not_mem_cons_of_ne_of_not_mem hfeed (htidy.line hkind)
    · exact ih (h.tail.drop n) hmem

theorem isTidy_of_mem_tokenize {s : Text} (h : Text.ReturnsEndLines s) {t : Token}
    (ht : t ∈ tokenize s) : t.IsTidy := isTidy_of_mem_tokensFrom h ht

end Excerpt
