import Excerpt.Proofs.Source.LineTable
import Excerpt.Proofs.Source.Order
import Excerpt.Proofs.Source.Ranges

/-!
# Excerpt — the ranges of declarations are nested

A declaration takes the comments above it and a comment behind it along. The comment that ends a
declaration stands on the line of its last token, and a comment that begins one stands first on its line,
so no comment is taken by both of two neighbours; with this, the order of the outline becomes that of the
ranges.

* **`exists_mem_tokenize`** — a character is in a token or stands between tokens.
* **`Layout.endOffset_le_startOffset`** — the range that ends with a token is before each range that begins
  with a later one.
* **`Layout.isLeadIn_startOffset`** — what stands in a range before its first token.
* **`SourceFile.Nested`** — the ranges of the declarations form a forest.
* **`SourceFile.parse?_nested`** — they do in every source file.
-/

namespace Excerpt

/-! ## The text is covered by tokens -/

/-- Each character stands between tokens or in a token. Induction along the tokens. -/
theorem exists_mem_tokensFrom {offset : Nat} {s p q : Text} {c : Char} (hs : s = p ++ c :: q) :
    Lexeme.isSkipped c = true ∨
      ∃ t ∈ tokensFrom offset s, t.start ≤ offset + Text.width p ∧ offset + Text.width p < t.stop := by
  revert p
  fun_induction tokensFrom offset s with
  | case1 =>
    intro p hs
    simp at hs
  | case2 offset d rest hskipped ih =>
    intro p hs
    cases p with
    | nil =>
      obtain ⟨rfl, -⟩ := List.cons.inj hs
      exact Or.inl hskipped
    | cons d' p =>
      obtain ⟨rfl, hrest⟩ := List.cons.inj hs
      rw [Text.width_cons, ← Nat.add_assoc]
      exact ih hrest
  | case3 offset d rest _ kind n hlex text =>
    rename_i ih
    intro p hs
    have htext : text ++ rest.drop n = p ++ c :: q := by rw [← hs]; simp [text]
    rcases List.append_eq_append_iff.mp htext with ⟨a, rfl, hrest⟩ | ⟨a, ha, hrest⟩
    · -- the character is behind the first token
      rcases ih hrest with hskipped | ⟨t, ht, hstart, hstop⟩
      · exact Or.inl hskipped
      · refine Or.inr ⟨t, List.mem_cons_of_mem _ ht, ?_⟩
        rw [Text.width_append]
        omega
    · cases a with
      | nil =>
        rw [List.nil_append] at hrest
        rw [List.append_nil] at ha
        rcases ih (p := []) hrest.symm with hskipped | ⟨t, ht, hstart, hstop⟩
        · exact Or.inl hskipped
        · refine Or.inr ⟨t, List.mem_cons_of_mem _ ht, ?_⟩
          rw [← ha]
          rw [Text.width_nil] at hstart hstop
          omega
      | cons d' a =>
        obtain ⟨rfl, -⟩ := List.cons.inj hrest
        have hpos := c.utf8Size_pos
        refine Or.inr ⟨⟨kind, text, offset⟩, List.mem_cons_self, Nat.le_add_right _ _, ?_⟩
        rw [Token.stop, ha, Text.width_append, Text.width_cons]
        dsimp only
        omega

/-- **Each character of a text is skipped or in a token.** -/
theorem exists_mem_tokenize (p q : Text) (c : Char) :
    Lexeme.isSkipped c = true ∨
      ∃ t ∈ tokenize (p ++ c :: q), t.start ≤ Text.width p ∧ Text.width p < t.stop := by
  have hcovered : Lexeme.isSkipped c = true ∨ ∃ t ∈ tokensFrom 0 (p ++ c :: q),
      t.start ≤ 0 + Text.width p ∧ 0 + Text.width p < t.stop := exists_mem_tokensFrom rfl
  rwa [Nat.zero_add] at hcovered

/-- A token is not empty. -/
theorem start_lt_stop_of_mem_tokensFrom {offset : Nat} {s : Text} {t : Token}
    (h : t ∈ tokensFrom offset s) : t.start < t.stop := by
  fun_induction tokensFrom offset s with
  | case1 => simp at h
  | case2 offset c rest _ ih => exact ih h
  | case3 offset c rest _ kind n hlex text ih =>
    rcases List.mem_cons.mp h with rfl | hmem
    · have hpos := c.utf8Size_pos
      show offset < offset + Text.width (c :: rest.take n)
      rw [Text.width_cons]
      omega
    · exact ih hmem

namespace Layout

/-- What stands in the text between two offsets: comments that lie between them, and characters of no
token. -/
structure IsLeadIn (l : Layout) (start stop : Nat) : Prop where
  comment : ∀ t ∈ l.tokens, t.start < stop → start < t.stop →
    t.kind.isComment = true ∧ start ≤ t.start ∧ t.stop ≤ stop
  skipped : ∀ (p q : Text) (c : Char), l.text = p ++ c :: q → start ≤ Text.width p →
    Text.width p < stop → Lexeme.isSkipped c = true ∨
      ∃ t ∈ l.tokens, t.start ≤ Text.width p ∧ Text.width p < t.stop

variable {text : Text}

/-! ## Where ranges begin -/

/-- A token that begins its line stands behind the start of that line, and the token before it does
not. -/
theorem stop_le_startOfLineAt {t u : Token} (ht : t ∈ (ofText text).tokens)
    (hline : (ofText text).lastLine t < (ofText text).firstLine u) :
    t.stop ≤ (ofText text).lines.startOfLineAt u.start := by
  have hlt := LineTable.lt_startOfLineAt_of_lineOf_lt text hline
  have hpos : t.start < t.stop :=
    start_lt_stop_of_mem_tokensFrom (List.mem_toArray.mp ht)
  show t.stop ≤ (LineTable.ofText text).startOfLineAt u.start
  omega

/-- The comments that lead in a declaration are comments, and each begins its line. -/
theorem withLeadingComments_spec (l : Layout) {line i m : Nat}
    (hm : l.withLeadingComments line i ≤ m) (hi : m < i) :
    (∃ c, l.tokens[m]? = some c ∧ c.kind.isComment = true) ∧ l.startsLine m = true := by
  induction i generalizing line with
  | zero => exact absurd hi (Nat.not_lt_zero m)
  | succ i ih =>
    unfold withLeadingComments at hm
    split at hm
    · next previous hprevious =>
      split at hm
      · next hcomment =>
        simp only [Bool.and_eq_true, decide_eq_true_eq] at hcomment
        rcases Nat.lt_or_eq_of_le (Nat.lt_succ_iff.mp hi) with hlt | rfl
        · exact ih hm hlt
        · exact ⟨⟨previous, hprevious, hcomment.1.1⟩, hcomment.2⟩
      · omega
    · omega

/-- What stands before a token that begins a range is before the range. -/
theorem stop_le_lineStartOrToken {m first : Nat} {t u : Token} (hlt : m < first)
    (ht : (ofText text).tokens[m]? = some t) (hu : (ofText text).tokens[first]? = some u) :
    t.stop ≤ (ofText text).lineStartOrToken first u := by
  have hsound := sound_ofText text
  unfold lineStartOrToken
  split
  · next hstarts =>
    cases first with
    | zero => exact absurd hlt (Nat.not_lt_zero m)
    | succ i =>
      obtain ⟨hlt', -⟩ := Array.getElem?_eq_some_iff.mp hu
      obtain ⟨previous, hprevious⟩ : ∃ previous, (ofText text).tokens[i]? = some previous :=
        ⟨_, Array.getElem?_eq_getElem (by omega)⟩
      simp only [startsLine, hprevious, hu, decide_eq_true_eq] at hstarts
      have hle := stop_le_startOfLineAt (Array.mem_of_getElem? hprevious) hstarts
      have hbefore := (start_le_start hsound (Nat.le_of_lt_succ hlt) ht hprevious).2
      exact Nat.le_trans hbefore hle
  · exact hsound.tokens m first t u hlt ht hu

/-- A range begins with the first of the comments that lead in its declaration, or with the line of that comment. -/
theorem startOffset_eq {p i : Nat} {t : Token} (hp : (ofText text).codeToken? p = some (i, t)) :
    ∃ u, (ofText text).withLeadingComments ((ofText text).firstLine t) i ≤ i ∧
      (ofText text).tokens[(ofText text).withLeadingComments ((ofText text).firstLine t) i]? = some u ∧
      (ofText text).startOffset p =
        (ofText text).lineStartOrToken ((ofText text).withLeadingComments ((ofText text).firstLine t) i) u := by
  obtain ⟨-, ht⟩ := of_codeToken? hp
  obtain ⟨hilt, -⟩ := Array.getElem?_eq_some_iff.mp ht
  have hle := withLeadingComments_le (ofText text) ((ofText text).firstLine t) i
  obtain ⟨u, hu⟩ : ∃ u, (ofText text).tokens[(ofText text).withLeadingComments
      ((ofText text).firstLine t) i]? = some u := ⟨_, Array.getElem?_eq_getElem (by omega)⟩
  exact ⟨u, hle, hu, by simp only [startOffset, hp, hu]⟩

/-- **Where the range of a declaration begins:** with a token up to the first one of code, in front of
which all others end, and between these two all are comments that begin their line. -/
theorem startOffset_first {p i : Nat} {t : Token} (hp : (ofText text).codeToken? p = some (i, t)) :
    ∃ first u, first ≤ i ∧ (ofText text).tokens[first]? = some u ∧
      (ofText text).startOffset p ≤ u.start ∧
      (∀ (m : Nat) (v : Token), m < first → (ofText text).tokens[m]? = some v →
        v.stop ≤ (ofText text).startOffset p) ∧
      ∀ m, first ≤ m → m < i →
        (∃ c, (ofText text).tokens[m]? = some c ∧ c.kind.isComment = true) ∧
          (ofText text).startsLine m = true := by
  obtain ⟨u, hle, hu, hstart⟩ := startOffset_eq hp
  refine ⟨_, u, hle, hu, ?_, ?_, fun m hm hi => withLeadingComments_spec _ hm hi⟩
  · rw [hstart]
    exact (lineStartOrToken_spec (sound_ofText text) _ (Array.mem_of_getElem? hu)).1
  · intro m v hm hv
    rw [hstart]
    exact stop_le_lineStartOrToken hm hv hu

/-- The token of code at a position is no comment. -/
theorem isTrivia_of_codeToken? {p i : Nat} {t : Token}
    (hp : (ofText text).codeToken? p = some (i, t)) : t.kind.isTrivia = false := by
  obtain ⟨hi, ht⟩ := of_codeToken? hp
  have hmem : i ∈ (ofText text).code := Array.mem_of_getElem? hi
  have hany := (Array.mem_filter.mp hmem).2
  change ((ofText text).tokens[i]?.any fun t => ! t.kind.isTrivia) = true at hany
  rw [ht, Option.any_some] at hany
  simpa using hany

theorem TokenKind.isTrivia_of_isComment {kind : TokenKind} (h : kind.isComment = true) :
    kind.isTrivia = true := by
  cases kind <;> first | rfl | exact absurd h (by decide)

/-- **What stands in a range before its first token:** comments, and what the tokens leave. -/
theorem isLeadIn_startOffset {p i : Nat} {t : Token}
    (hp : (ofText text).codeToken? p = some (i, t)) :
    (ofText text).IsLeadIn ((ofText text).startOffset p) t.start := by
  obtain ⟨first, u, hle, hu, hstart, hbefore, hcomments⟩ := startOffset_first hp
  obtain ⟨-, ht⟩ := of_codeToken? hp
  have hsound := sound_ofText text
  constructor
  · intro v hv hvstart hvstop
    obtain ⟨m, hm⟩ := Array.mem_iff_getElem?.mp hv
    have hmi : m < i := by
      refine Nat.lt_of_not_le fun hge => ?_
      have hordered := (start_le_start hsound hge ht hm).1
      omega
    have hfirst : first ≤ m := by
      refine Nat.le_of_not_lt fun hlt => ?_
      have hended := hbefore m v hlt hm
      omega
    obtain ⟨⟨c, hc, hcomment⟩, -⟩ := hcomments m hfirst hmi
    obtain rfl : c = v := Option.some.inj (hc.symm.trans hm)
    have hordered := (start_le_start hsound hfirst hu hm).1
    exact ⟨hcomment, Nat.le_trans hstart hordered, hsound.tokens m i c t hmi hm ht⟩
  · intro p q c htext _ _
    rw [show (ofText text).text = text from rfl] at htext
    rcases exists_mem_tokenize p q c with hskipped | ⟨v, hv, hbounds⟩
    · exact Or.inl hskipped
    · rw [← htext] at hv
      exact Or.inr ⟨v, List.mem_toArray.mpr hv, hbounds⟩

/-! ## Where ranges end -/

/-- The range that ends with a token of code ends with it or with the comment behind it. -/
theorem endOffset_cases {p i : Nat} {t : Token} (hp : (ofText text).codeToken? p = some (i, t)) :
    (ofText text).endOffset p = t.stop ∨
      ∃ next, (ofText text).tokens[i + 1]? = some next ∧ next.kind.isComment = true ∧
        (ofText text).firstLine next = (ofText text).firstLine t ∧
        (ofText text).endOffset p = next.stop := by
  unfold endOffset
  rw [hp]
  dsimp only
  split
  · next next hnext =>
    split
    · next hcomment =>
      simp only [Bool.and_eq_true, decide_eq_true_eq] at hcomment
      exact Or.inr ⟨next, hnext, hcomment.1, hcomment.2, rfl⟩
    · exact Or.inl rfl
  · exact Or.inl rfl

/-- **The range that ends with a token is before each range that begins with a later one.** A comment
behind the token, on its line, does not begin a line. -/
theorem endOffset_le_startOffset {p q : Nat} (hpq : p < q) (hq : q < (ofText text).code.size) :
    (ofText text).endOffset p ≤ (ofText text).startOffset q := by
  have hsound := sound_ofText text
  obtain ⟨i, t, hi, hcodeI, htokenI⟩ := exists_codeToken? hsound (Nat.lt_trans hpq hq)
  obtain ⟨j, u, hj, hcodeJ, htokenJ⟩ := exists_codeToken? hsound hq
  have hij := hsound.indices p q i j hpq hcodeI hcodeJ
  obtain ⟨first, v, hle, hv, hstart, hbefore, hcomments⟩ := startOffset_first hj
  -- the token at `i` is code, so the comments that lead in the later one stand behind it
  have hfirst : i < first := by
    refine Nat.lt_of_not_le fun hge => ?_
    obtain ⟨⟨c, hc, hcomment⟩, -⟩ := hcomments i hge hij
    obtain rfl : c = t := Option.some.inj (hc.symm.trans htokenI)
    exact absurd (isTrivia_of_codeToken? hi) (by rw [TokenKind.isTrivia_of_isComment hcomment]; simp)
  rcases endOffset_cases hi with hstop | ⟨next, hnext, hcomment, hline, hstop⟩
  · rw [hstop]
    exact hbefore i t hfirst htokenI
  · rw [hstop]
    refine hbefore (i + 1) next (Nat.lt_of_not_le fun hge => ?_) hnext
    obtain rfl : first = i + 1 := by omega
    rcases Nat.lt_or_eq_of_le hle with hlt | rfl
    · obtain ⟨-, hstarts⟩ := hcomments (i + 1) (Nat.le_refl _) hlt
      simp only [startsLine, htokenI, hnext, decide_eq_true_eq] at hstarts
      have hpos : t.start < t.stop :=
        start_lt_stop_of_mem_tokensFrom (List.mem_toArray.mp (Array.mem_of_getElem? htokenI))
      have hmono : (ofText text).firstLine t ≤ (ofText text).lastLine t :=
        LineTable.lineOf_mono text (by omega)
      omega
    · obtain rfl : u = next := Option.some.inj (htokenJ.symm.trans hnext)
      exact absurd (isTrivia_of_codeToken? hj) (by rw [TokenKind.isTrivia_of_isComment hcomment]; simp)

/-- A declaration begins before each of its tokens. -/
theorem startOffset_le_start {first p i : Nat} {t : Token} (hle : first ≤ p)
    (hp : (ofText text).codeToken? p = some (i, t)) : (ofText text).startOffset first ≤ t.start := by
  have hsound := sound_ofText text
  obtain ⟨hcode, htoken⟩ := of_codeToken? hp
  obtain ⟨hlt, -⟩ := Array.getElem?_eq_some_iff.mp hcode
  obtain ⟨k, f, hk, hcodeK, htokenK⟩ := exists_codeToken? hsound (Nat.lt_of_le_of_lt hle hlt)
  apply Nat.le_trans (startOffset_spec hsound hk).1
  exact (start_le_start hsound (index_le_index hsound hle hcodeK hcode) htokenK htoken).1

/-- A declaration ends behind each of its tokens. -/
theorem stop_le_endOffset {p last i : Nat} {t : Token} (hle : p ≤ last)
    (hlast : last < (ofText text).code.size) (hp : (ofText text).codeToken? p = some (i, t)) :
    t.stop ≤ (ofText text).endOffset last := by
  have hsound := sound_ofText text
  obtain ⟨hcode, htoken⟩ := of_codeToken? hp
  obtain ⟨m, e, hm, hcodeM, htokenM⟩ := exists_codeToken? hsound hlast
  refine Nat.le_trans ?_ (endOffset_spec hsound hm).1
  exact (start_le_start hsound (index_le_index hsound hle hcode hcodeM) htoken htokenM).2

/-- A range holds its first and its last token. -/
theorem startOffset_le_anchor_lt_endOffset {first last : Nat} (hle : first ≤ last)
    (hlast : last < (ofText text).code.size) :
    (ofText text).startOffset first ≤ (ofText text).anchor first ∧
      (ofText text).anchor first < (ofText text).endOffset last := by
  obtain ⟨i, t, hi, -, htoken⟩ :=
    exists_codeToken? (sound_ofText text) (Nat.lt_of_le_of_lt hle hlast)
  have hpos : t.start < t.stop :=
    start_lt_stop_of_mem_tokensFrom (List.mem_toArray.mp (Array.mem_of_getElem? htoken))
  have hanchor : (ofText text).anchor first = t.start := by
    unfold anchor
    rw [hi]
  rw [hanchor]
  exact ⟨startOffset_le_start (Nat.le_refl _) hi,
    Nat.lt_of_lt_of_le hpos (stop_le_endOffset hle hlast hi)⟩

/-- What stands between two tokens of a declaration lies behind the one and before the other. -/
theorem between?_within {opening closing i j : Nat} {t u : Token}
    (hi : (ofText text).codeToken? opening = some (i, t))
    (hj : (ofText text).codeToken? closing = some (j, u)) (hij : i < j) {span : Span}
    (hspan : (ofText text).between? opening closing = some span) :
    t.start < span.start ∧ span.stop ≤ u.stop := by
  have hsound := sound_ofText text
  have htoken := (of_codeToken? hi).2
  have hpos : t.start < t.stop :=
    start_lt_stop_of_mem_tokensFrom (List.mem_toArray.mp (Array.mem_of_getElem? htoken))
  have htoken' := (of_codeToken? hj).2
  obtain ⟨hjlt, -⟩ := Array.getElem?_eq_some_iff.mp htoken'
  obtain ⟨v, hv⟩ : ∃ v, (ofText text).tokens[i + 1]? = some v :=
    ⟨_, Array.getElem?_eq_getElem (by omega)⟩
  obtain ⟨w, hw⟩ : ∃ w, (ofText text).tokens[j - 1]? = some w :=
    ⟨_, Array.getElem?_eq_getElem (by omega)⟩
  have hbehind := hsound.tokens i (i + 1) t v (Nat.lt_succ_self i) htoken hv
  have hbefore := hsound.tokens (j - 1) j w u (by omega) hw htoken'
  have hstop := u.start_le_stop
  simp only [between?, hi, hj, hv, hw, Option.bind_eq_bind, Option.bind_some, Option.pure_def,
    Option.some.injEq] at hspan
  subst hspan
  refine ⟨?_, by dsimp only; omega⟩
  dsimp only
  split
  · omega
  · next hline =>
    -- the line on which the inside begins is behind that of the first token
    have hmono : (ofText text).firstLine t ≤ (ofText text).firstLine v :=
      LineTable.lineOf_mono text (by omega)
    exact LineTable.lt_startOfLineAt_of_lineOf_lt text
      (Nat.lt_of_le_of_ne hmono fun heq => hline heq.symm)

/-- **A body lies within the range of its declaration.** -/
theorem bodySpan?_within {first last : Nat} {b : BodyExtent} (hb : b.Within first last)
    (hlast : last < (ofText text).code.size) {span : Span}
    (hspan : (ofText text).bodySpan? b = some span) :
    (ofText text).startOffset first ≤ span.start ∧ span.stop ≤ (ofText text).endOffset last := by
  have hsound := sound_ofText text
  cases b with
  | block opening closing =>
    obtain ⟨hopening, hinner, hclosing⟩ := hb
    obtain ⟨i, t, hi, hcodeI, -⟩ := exists_codeToken? hsound (p := opening) (by omega)
    obtain ⟨j, u, hj, hcodeJ, -⟩ := exists_codeToken? hsound (p := closing) (by omega)
    have hij := hsound.indices opening closing i j (by omega) hcodeI hcodeJ
    obtain ⟨hstart, hstop⟩ := between?_within hi hj hij hspan
    exact ⟨Nat.le_trans (startOffset_le_start hopening hi) (Nat.le_of_lt hstart),
      Nat.le_trans hstop (stop_le_endOffset hclosing hlast hj)⟩
  | expression start stop =>
    obtain ⟨hbegin, hle, hend⟩ := hb
    obtain ⟨i, t, hi, -, -⟩ := exists_codeToken? hsound (p := start) (by omega)
    obtain ⟨j, u, hj, -, -⟩ := exists_codeToken? hsound (p := stop) (by omega)
    simp only [bodySpan?, hi, hj, Option.bind_eq_bind, Option.bind_some, Option.pure_def,
      Option.some.injEq] at hspan
    subst hspan
    exact ⟨startOffset_le_start hbegin hi, stop_le_endOffset hend hlast hj⟩

/-- A token that begins before a range ends before it. -/
theorem stop_le_startOffset {q : Nat} (hq : q < (ofText text).code.size) {t : Token}
    (ht : t ∈ (ofText text).tokens) (hlt : t.start < (ofText text).startOffset q) :
    t.stop ≤ (ofText text).startOffset q := by
  have hsound := sound_ofText text
  obtain ⟨j, u, hj, -, -⟩ := exists_codeToken? hsound hq
  obtain ⟨first, v, -, hv, hstart, hbefore, -⟩ := startOffset_first hj
  obtain ⟨m, hm⟩ := Array.mem_iff_getElem?.mp ht
  refine hbefore m t (Nat.lt_of_not_le fun hge => ?_) hm
  have hordered := (start_le_start hsound hge hv hm).1
  omega

end Layout

/-! ## Source files -/

namespace Span

/-- The first range lies within the second one. -/
def IsWithin (inner outer : Span) : Prop := outer.start ≤ inner.start ∧ inner.stop ≤ outer.stop

/-- The token and the range have a byte in common. -/
def Meets (span : Span) (t : Token) : Prop := t.start < span.stop ∧ span.start < t.stop

end Span

namespace SourceFile

/-- The declaration at the first index is named as its container by the one at the second index. -/
def Contains (file : SourceFile) (i j : Nat) : Prop :=
  ∃ d ∈ file.declarations[j]?, d.parent = some i

/-- The declaration at the first index contains the one at the second index, directly or through
others. -/
def Surrounds (file : SourceFile) : Nat → Nat → Prop := Relation.TransGen file.Contains

/-- **The ranges of the declarations form a forest**, in the order of the text. -/
structure Nested (file : SourceFile) : Prop where
  parent : ∀ (i : Nat) (d : Declaration), file.declarations[i]? = some d → ∀ p ∈ d.parent,
    p < i ∧ ∃ c, file.declarations[p]? = some c ∧ c.kind.IsContainer
  anchor : ∀ (i j : Nat) (d e : Declaration), i < j → file.declarations[i]? = some d →
    file.declarations[j]? = some e → d.anchor < e.anchor
  full : ∀ d ∈ file.declarations, d.full.start ≤ d.anchor ∧ d.anchor < d.full.stop ∧
    d.full.stop ≤ Text.width file.layout.text
  leadIn : ∀ d ∈ file.declarations, file.layout.IsLeadIn d.full.start d.anchor
  body : ∀ d ∈ file.declarations, ∀ span ∈ d.body, span.start ≤ span.stop ∧ span.IsWithin d.full
  within : ∀ (i j : Nat) (d e : Declaration), i < j → file.declarations[i]? = some d →
    file.declarations[j]? = some e → file.Surrounds i j → e.full.IsWithin d.full
  apart : ∀ (i j : Nat) (d e : Declaration), i < j → file.declarations[i]? = some d →
    file.declarations[j]? = some e → ¬ file.Surrounds i j → d.full.stop ≤ e.full.start
  leaf : ∀ (i j : Nat) (d e : Declaration), i ≠ j → file.declarations[i]? = some d →
    file.declarations[j]? = some e → ¬ d.kind.IsContainer → ¬ e.full.IsWithin d.full
  token : ∀ (i j : Nat) (d e : Declaration), i < j → file.declarations[i]? = some d →
    file.declarations[j]? = some e → ∀ t ∈ file.layout.tokens, d.full.Meets t → e.full.Meets t →
      file.Surrounds i j

/-- The source file whose declarations are those of the nodes. -/
def ofOutline (text : Text) (nodes : List OutlineNode) : SourceFile :=
  ⟨Layout.ofText text,
    ((OutlineNode.entriesAll none 0 nodes).map (Layout.ofText text).declaration).toArray⟩

section OfOutline

variable {text : Text} {nodes : List OutlineNode}

theorem getElem?_declarations_ofOutline {i : Nat} {d : Declaration}
    (hd : (ofOutline text nodes).declarations[i]? = some d) :
    ∃ e, (OutlineNode.entriesAll none 0 nodes)[i]? = some e ∧
      (Layout.ofText text).declaration e = d := by
  rw [ofOutline, List.getElem?_toArray, List.getElem?_map] at hd
  exact Option.map_eq_some_iff.mp hd

theorem contains_ofOutline_iff (i j : Nat) :
    (ofOutline text nodes).Contains i j ↔
      Outline.Contains (OutlineNode.entriesAll none 0 nodes) i j := by
  constructor
  · rintro ⟨d, hd, hparent⟩
    obtain ⟨e, he, rfl⟩ := getElem?_declarations_ofOutline hd
    exact ⟨e, he, hparent⟩
  · rintro ⟨e, he, hparent⟩
    refine ⟨(Layout.ofText text).declaration e, ?_, hparent⟩
    rw [ofOutline, List.getElem?_toArray, List.getElem?_map, he]
    rfl

theorem surrounds_ofOutline_iff (i j : Nat) :
    (ofOutline text nodes).Surrounds i j ↔
      Outline.Surrounds (OutlineNode.entriesAll none 0 nodes) i j := by
  have hcontains : (ofOutline text nodes).Contains =
      Outline.Contains (OutlineNode.entriesAll none 0 nodes) :=
    funext fun i => funext fun j => propext (contains_ofOutline_iff i j)
  rw [Surrounds, Outline.Surrounds, hcontains]

variable (ho : OutlineNode.Ordered 0 (Layout.ofText text).code.size nodes)

include ho

theorem bounds_of_getElem?_entries {i : Nat} {e : OutlineEntry}
    (he : (OutlineNode.entriesAll none 0 nodes)[i]? = some e) :
    e.declared.first ≤ e.declared.last ∧ e.declared.last < (Layout.ofText text).code.size :=
  (OutlineNode.bounds_of_mem_entriesAll ho (List.mem_of_getElem? he)).2

/-- Of two declarations in their order, the first one surrounds the second one and begins before it, or
ends before it. -/
theorem surrounds_or_apart {i j : Nat} (hij : i < j) {e f : OutlineEntry}
    (he : (OutlineNode.entriesAll none 0 nodes)[i]? = some e)
    (hf : (OutlineNode.entriesAll none 0 nodes)[j]? = some f) :
    ((ofOutline text nodes).Surrounds i j ∧ e.declared.kind.IsContainer ∧
        e.declared.first < f.declared.first ∧ f.declared.last ≤ e.declared.last) ∨
      (¬ (ofOutline text nodes).Surrounds i j ∧ e.declared.last < f.declared.first) := by
  have hinside : (ofOutline text nodes).Surrounds i j → e.declared.kind.IsContainer ∧
      e.declared.first < f.declared.first ∧ f.declared.last ≤ e.declared.last := by
    intro hsurrounds
    obtain ⟨e', he', hbounds⟩ := OutlineNode.first_lt_and_last_le_of_surrounds ho
      ((surrounds_ofOutline_iff i j).mp hsurrounds) hf
    obtain rfl : e' = e := Option.some.inj (he'.symm.trans he)
    exact hbounds
  have hat : Outline.HasAt (OutlineNode.entriesAll none 0 nodes) 0
      (OutlineNode.entriesAll none 0 nodes) := by
    intro k g hg
    rwa [Nat.zero_add]
  rcases OutlineNode.surrounds_or_last_lt ho hat hij he hf with hsurrounds | hlt
  · rw [Nat.zero_add, Nat.zero_add] at hsurrounds
    have hnames : (ofOutline text nodes).Surrounds i j :=
      (surrounds_ofOutline_iff i j).mpr hsurrounds
    exact Or.inl ⟨hnames, hinside hnames⟩
  · refine Or.inr ⟨fun hsurrounds => ?_, hlt⟩
    have hlast := (hinside hsurrounds).2.2
    have hbounds := (bounds_of_getElem?_entries ho hf).1
    omega

/-- The range of a declaration holds its first token, with comments alone before it. -/
theorem full_of_getElem?_entries {i : Nat} {e : OutlineEntry}
    (he : (OutlineNode.entriesAll none 0 nodes)[i]? = some e) :
    let d := (Layout.ofText text).declaration e
    d.full.start ≤ d.anchor ∧ d.anchor < d.full.stop ∧
      (Layout.ofText text).IsLeadIn d.full.start d.anchor := by
  obtain ⟨hordered, hlast⟩ := bounds_of_getElem?_entries ho he
  obtain ⟨hstart, hstop⟩ := Layout.startOffset_le_anchor_lt_endOffset hordered hlast
  obtain ⟨index, t, ht, -, -⟩ :=
    Layout.exists_codeToken? (Layout.sound_ofText text) (Nat.lt_of_le_of_lt hordered hlast)
  have hlead := Layout.isLeadIn_startOffset ht
  have hanchor : (Layout.ofText text).anchor e.declared.first = t.start := by
    unfold Layout.anchor
    rw [ht]
  rw [← hanchor] at hlead
  exact ⟨hstart, hstop, hlead⟩

section Pair

variable {i j : Nat} (hij : i < j) {e f : OutlineEntry}
  (he : (OutlineNode.entriesAll none 0 nodes)[i]? = some e)
  (hf : (OutlineNode.entriesAll none 0 nodes)[j]? = some f)

include hij he hf

/-- A declaration begins before the ranges of those that follow it. -/
theorem anchor_lt_start : ((Layout.ofText text).declaration e).anchor <
    ((Layout.ofText text).declaration f).full.start := by
  have hboundsE := bounds_of_getElem?_entries ho he
  have hboundsF := bounds_of_getElem?_entries ho hf
  have hfirst : e.declared.first < f.declared.first := by
    rcases surrounds_or_apart ho hij he hf with ⟨-, -, hlt, -⟩ | ⟨-, hlt⟩
    · exact hlt
    · omega
  have hholds := Layout.startOffset_le_anchor_lt_endOffset (Nat.le_refl e.declared.first)
    (Nat.lt_of_le_of_lt hboundsE.1 hboundsE.2)
  have hbefore : (Layout.ofText text).endOffset e.declared.first ≤
      (Layout.ofText text).startOffset f.declared.first :=
    Layout.endOffset_le_startOffset hfirst (Nat.lt_of_le_of_lt hboundsF.1 hboundsF.2)
  exact Nat.lt_of_lt_of_le hholds.2 hbefore

theorem within_of_surrounds (hsurrounds : (ofOutline text nodes).Surrounds i j) :
    ((Layout.ofText text).declaration f).full.IsWithin
      ((Layout.ofText text).declaration e).full := by
  have hlater := anchor_lt_start ho hij he hf
  have hfull := full_of_getElem?_entries ho he
  obtain ⟨-, hlastE⟩ := bounds_of_getElem?_entries ho he
  rcases surrounds_or_apart ho hij he hf with ⟨-, -, -, hlast⟩ | ⟨hnot, -⟩
  · refine ⟨Nat.le_of_lt (Nat.lt_of_le_of_lt hfull.1 hlater), ?_⟩
    show (Layout.ofText text).endOffset f.declared.last ≤
      (Layout.ofText text).endOffset e.declared.last
    rcases Nat.lt_or_eq_of_le hlast with hlt | heq
    · have hbefore := Layout.endOffset_le_startOffset hlt hlastE
      have hholds := Layout.startOffset_le_anchor_lt_endOffset (Nat.le_refl _) hlastE
      omega
    · exact Nat.le_of_eq (by rw [heq])
  · exact absurd hsurrounds hnot

theorem stop_le_start_of_not_surrounds (hnot : ¬ (ofOutline text nodes).Surrounds i j) :
    ((Layout.ofText text).declaration e).full.stop ≤
      ((Layout.ofText text).declaration f).full.start := by
  obtain ⟨hordered, hlast⟩ := bounds_of_getElem?_entries ho hf
  rcases surrounds_or_apart ho hij he hf with ⟨hsurrounds, -⟩ | ⟨-, hlt⟩
  · exact absurd hsurrounds hnot
  · exact Layout.endOffset_le_startOffset hlt (Nat.lt_of_le_of_lt hordered hlast)

/-- What is no namespace and no type holds no later declaration. -/
theorem not_within_of_not_isContainer (hkind : ¬ e.declared.kind.IsContainer) :
    ¬ ((Layout.ofText text).declaration f).full.IsWithin
      ((Layout.ofText text).declaration e).full := by
  intro hwithin
  have hnot : ¬ (ofOutline text nodes).Surrounds i j := by
    intro hsurrounds
    rcases surrounds_or_apart ho hij he hf with ⟨-, hcontainer, -⟩ | ⟨hnot, -⟩
    · exact hkind hcontainer
    · exact hnot hsurrounds
  have hapart := stop_le_start_of_not_surrounds ho hij he hf hnot
  have hfull := full_of_getElem?_entries ho hf
  have hinside := hwithin.2
  omega

/-- No declaration holds one that stands before it. -/
theorem not_within_of_lt : ¬ ((Layout.ofText text).declaration e).full.IsWithin
    ((Layout.ofText text).declaration f).full := by
  intro hwithin
  have hlater := anchor_lt_start ho hij he hf
  have hfull := full_of_getElem?_entries ho he
  have hinside := hwithin.1
  omega

/-- A token that two declarations have in common is within both, so the first one surrounds the other. -/
theorem surrounds_of_meets {t : Token} (ht : t ∈ (Layout.ofText text).tokens)
    (hmeetsE : ((Layout.ofText text).declaration e).full.Meets t)
    (hmeetsF : ((Layout.ofText text).declaration f).full.Meets t) :
    (ofOutline text nodes).Surrounds i j := by
  refine Classical.byContradiction fun hnot => ?_
  obtain ⟨hordered, hlast⟩ := bounds_of_getElem?_entries ho hf
  have hapart := stop_le_start_of_not_surrounds ho hij he hf hnot
  have hstop := Layout.stop_le_startOffset (Nat.lt_of_le_of_lt hordered hlast) ht
    (Nat.lt_of_lt_of_le hmeetsE.1 hapart)
  exact absurd hmeetsF.2 (Nat.not_lt.mpr hstop)

end Pair

end OfOutline

/-- The declarations of a source file are those of an ordered outline. -/
theorem exists_outline_of_parse? {text : Text} {file : SourceFile} (h : parse? text = some file) :
    ∃ nodes, Outline.read? (codeOf (tokenize text)) = some nodes ∧ file = ofOutline text nodes ∧
      OutlineNode.Ordered 0 (Layout.ofText text).code.size nodes := by
  obtain ⟨nodes, hnodes, rfl⟩ := Option.map_eq_some_iff.mp h
  refine ⟨nodes, hnodes, rfl, ?_⟩
  rw [Layout.size_code_ofText]
  exact Outline.ordered_of_read? hnodes

theorem layout_of_parse? {text : Text} {file : SourceFile} (h : parse? text = some file) :
    file.layout = Layout.ofText text := by
  obtain ⟨nodes, -, rfl, -⟩ := exists_outline_of_parse? h
  rfl

/-- Declarations begin in their order. -/
theorem anchor_lt_anchor {text : Text} {file : SourceFile} (h : parse? text = some file) {i j : Nat}
    (hij : i < j) {d e : Declaration} (hd : file.declarations[i]? = some d)
    (he : file.declarations[j]? = some e) : d.anchor < e.anchor := by
  obtain ⟨nodes, -, rfl, ho⟩ := exists_outline_of_parse? h
  obtain ⟨a, ha, rfl⟩ := getElem?_declarations_ofOutline hd
  obtain ⟨b, hb, rfl⟩ := getElem?_declarations_ofOutline he
  exact Nat.lt_of_lt_of_le (anchor_lt_start ho hij ha hb) (full_of_getElem?_entries ho hb).1

/-- **The ranges of the declarations of a source file form a forest.** -/
theorem parse?_nested {text : Text} {file : SourceFile} (h : parse? text = some file) :
    file.layout = Layout.ofText text ∧ file.Nested := by
  have hsound := sound_of_parse? h
  obtain ⟨nodes, hnodes, rfl, ho⟩ := exists_outline_of_parse? h
  refine ⟨rfl, ?_⟩
  constructor
  case parent =>
    intro i d hd p hp
    refine ⟨hsound.parent i d hd p hp, ?_⟩
    obtain ⟨e, he, rfl⟩ := getElem?_declarations_ofOutline hd
    rcases OutlineNode.parent_of_getElem?_entriesAll ho he with hnone | ⟨q, c, hq, hc, hkind, -⟩
    · cases hnone.symm.trans hp
    · rw [Nat.zero_add] at hq
      obtain rfl : q = p := Option.some.inj (hq.symm.trans hp)
      refine ⟨(Layout.ofText text).declaration c, ?_, hkind⟩
      rw [ofOutline, List.getElem?_toArray, List.getElem?_map, hc]
      rfl
  case anchor =>
    intro i j d e hij hd he
    exact anchor_lt_anchor h hij hd he
  case full =>
    intro d hd
    obtain ⟨q, ⟨rest, hrest⟩, hwidth⟩ := (hsound.full d hd).stop
    obtain ⟨i, hi⟩ := Array.mem_iff_getElem?.mp hd
    obtain ⟨e, he, rfl⟩ := getElem?_declarations_ofOutline hi
    have hholds := full_of_getElem?_entries ho he
    refine ⟨hholds.1, hholds.2.1, ?_⟩
    rw [← hwidth, ← hrest, Text.width_append]
    exact Nat.le_add_right _ _
  case leadIn =>
    intro d hd
    obtain ⟨i, hi⟩ := Array.mem_iff_getElem?.mp hd
    obtain ⟨e, he, rfl⟩ := getElem?_declarations_ofOutline hi
    exact (full_of_getElem?_entries ho he).2.2
  case body =>
    intro d hd span hspan
    refine ⟨(hsound.body d hd span hspan).ordered, ?_⟩
    obtain ⟨i, hi⟩ := Array.mem_iff_getElem?.mp hd
    obtain ⟨e, he, rfl⟩ := getElem?_declarations_ofOutline hi
    obtain ⟨b, hb, hspan⟩ := Option.bind_eq_some_iff.mp hspan
    have hfits : e.declared.Fits (Layout.ofText text).code.size := by
      rw [Layout.size_code_ofText]
      exact OutlineNode.fits_of_mem_entriesAll (Outline.fits_of_read? hnodes) (List.mem_of_getElem? he)
    exact Layout.bodySpan?_within (hfits.body b hb) hfits.lt hspan
  case within =>
    intro i j d e hij hd he
    obtain ⟨a, ha, rfl⟩ := getElem?_declarations_ofOutline hd
    obtain ⟨b, hb, rfl⟩ := getElem?_declarations_ofOutline he
    exact within_of_surrounds ho hij ha hb
  case apart =>
    intro i j d e hij hd he
    obtain ⟨a, ha, rfl⟩ := getElem?_declarations_ofOutline hd
    obtain ⟨b, hb, rfl⟩ := getElem?_declarations_ofOutline he
    exact stop_le_start_of_not_surrounds ho hij ha hb
  case leaf =>
    intro i j d e hij hd he hkind
    obtain ⟨a, ha, rfl⟩ := getElem?_declarations_ofOutline hd
    obtain ⟨b, hb, rfl⟩ := getElem?_declarations_ofOutline he
    rcases Nat.lt_or_gt_of_ne hij with hlt | hgt
    · exact not_within_of_not_isContainer ho hlt ha hb hkind
    · exact not_within_of_lt ho hgt hb ha
  case token =>
    intro i j d e hij hd he t ht
    obtain ⟨a, ha, rfl⟩ := getElem?_declarations_ofOutline hd
    obtain ⟨b, hb, rfl⟩ := getElem?_declarations_ofOutline he
    exact surrounds_of_meets ho hij ha hb ht

/-- A method with a comment above it and one behind it, in a type in a namespace, before another type. -/
def commentedMethod : Text :=
  "namespace N;\n// A\nclass A \x7b\n  // F\n  void F() \x7b g(); \x7d // f\n  /* G */ int G => 1;\n\x7d\nclass B;".toList

/-- Its five declarations are nested. -/
theorem parse?_nested_commentedMethod :
    ∃ file, parse? commentedMethod = some file ∧ file.declarations.size = 5 ∧
      file.layout = Layout.ofText commentedMethod ∧ file.Nested := by
  have hsome : (parse? commentedMethod).any (·.declarations.size = 5) = true := by decide +kernel
  obtain ⟨file, hfile, hsize⟩ := (Option.any_eq_true _ _).mp hsome
  exact ⟨file, hfile, by simpa using hsize, parse?_nested hfile⟩

end SourceFile

end Excerpt
