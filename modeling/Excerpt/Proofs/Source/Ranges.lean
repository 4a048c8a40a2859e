import Excerpt.Proofs.Source.Header
import Excerpt.Proofs.Source.Offsets
import Excerpt.Proofs.Source.Reading

/-!
# Excerpt — the ranges of declarations

Positions in the code become indices of tokens, and these become offsets of the text. Where a declaration
fits the code, each index is that of a token, and each range that is taken from the tokens begins and ends
at offsets of the text, in this order.

* **`Layout.Sound`** — the indices of the code are those of tokens, and the tokens lie in the text one
  behind the other; **`Layout.sound_ofText`** — the layout of any text is sound.
* **`isIn_full`**, **`isIn_bodySpan?`** — the ranges of a declaration that fits.
* **`SourceFile.Sound`** — every index, position and range of a source file is in its place.
* **`SourceFile.parse?_sound`** — every text has such a source file, but for those in which the header
  of a namespace runs to the end inside of a type.
-/

namespace Excerpt

/-- The range begins and ends at offsets of the text, and does not end before it begins. -/
structure Span.IsIn (text : Text) (span : Span) : Prop where
  ordered : span.start ≤ span.stop
  start : Text.IsOffset text span.start
  stop : Text.IsOffset text span.stop

namespace Layout

/-- The tokens lie in the text one behind the other, and the indices of the code are those of tokens, in
increasing order. -/
structure Sound (l : Layout) : Prop where
  lines : l.lines = LineTable.ofText l.text
  token : ∀ t ∈ l.tokens, Text.IsOffset l.text t.start ∧ Text.IsOffset l.text t.stop ∧
    Text.slice l.text t.start t.stop = t.text
  tokens : ∀ (i j : Nat) (t u : Token), i < j → l.tokens[i]? = some t → l.tokens[j]? = some u →
    t.stop ≤ u.start
  index : ∀ i ∈ l.code, i < l.tokens.size
  indices : ∀ p q i j : Nat, p < q → l.code[p]? = some i → l.code[q]? = some j → i < j

theorem sound_ofText (text : Text) : (ofText text).Sound where
  lines := rfl
  token t ht := mem_tokenize (List.mem_toArray.mp ht)
  tokens i j t u hij hi hj := by
    have hpairwise := List.pairwise_iff_getElem.mp (pairwise_tokenize text)
    obtain ⟨hilt, rfl⟩ := Array.getElem?_eq_some_iff.mp hi
    obtain ⟨hjlt, rfl⟩ := Array.getElem?_eq_some_iff.mp hj
    exact hpairwise i j hilt hjlt hij
  index i hi := by
    have hrange := (Array.mem_filter.mp hi).1
    exact Array.mem_range.mp hrange
  indices p q i j hpq hp hq := by
    have hpairwise : (ofText text).code.toList.Pairwise (· < ·) := by
      rw [ofText, Array.toList_filter, Array.toList_range]
      exact List.pairwise_lt_range.filter _
    obtain ⟨hplt, rfl⟩ := Array.getElem?_eq_some_iff.mp hp
    obtain ⟨hqlt, rfl⟩ := Array.getElem?_eq_some_iff.mp hq
    exact List.pairwise_iff_getElem.mp hpairwise p q hplt hqlt hpq

theorem map_range_getElem? (ts : List Token) : (List.range ts.length).map (fun i => ts[i]?) = ts.map some := by
  refine List.ext_getElem (by simp) ?_
  intro i hi hi'
  simp

/-- Picking the indices of a list's members picks as many as picking the members. -/
theorem countP_range_getElem? (q : Token → Bool) (ts : List Token) :
    (List.range ts.length).countP (fun i => ts[i]?.any q) = ts.countP q := by
  rw [show (fun i => ts[i]?.any q) = (Option.any q) ∘ (fun i => ts[i]?) from rfl, ← List.countP_map,
    map_range_getElem?, List.countP_map]
  rfl

theorem size_code_ofText (text : Text) :
    (ofText text).code.size = (codeOf (tokenize text)).length := by
  have hcount := countP_range_getElem? (fun t => ! t.kind.isTrivia) (tokenize text)
  rw [← Array.length_toList, ofText, Array.toList_filter, Array.toList_range, codeOf, List.length_map,
    ← List.countP_eq_length_filter, ← List.countP_eq_length_filter]
  simpa using hcount

variable {l : Layout}

/-! ## Tokens of the code -/

theorem exists_codeToken? (h : l.Sound) {p : Nat} (hp : p < l.code.size) :
    ∃ i t, l.codeToken? p = some (i, t) ∧ l.code[p]? = some i ∧ l.tokens[i]? = some t := by
  have hi : l.code[p]? = some l.code[p] := Array.getElem?_eq_getElem hp
  have hlt := h.index l.code[p] (Array.getElem_mem hp)
  have ht : l.tokens[l.code[p]]? = some l.tokens[l.code[p]] := Array.getElem?_eq_getElem hlt
  refine ⟨_, _, ?_, hi, ht⟩
  simp only [codeToken?, hi, ht, Option.bind_eq_bind, Option.bind_some, Option.pure_def]

theorem of_codeToken? {p i : Nat} {t : Token} (h : l.codeToken? p = some (i, t)) :
    l.code[p]? = some i ∧ l.tokens[i]? = some t := by
  simp only [codeToken?, Option.bind_eq_bind, Option.pure_def] at h
  obtain ⟨i', hi, h⟩ := Option.bind_eq_some_iff.mp h
  obtain ⟨t', ht, h⟩ := Option.bind_eq_some_iff.mp h
  obtain ⟨rfl, rfl⟩ := Prod.mk.inj (Option.some.inj h)
  exact ⟨hi, ht⟩

/-- Tokens in order start and stop in order. -/
theorem start_le_start (h : l.Sound) {i j : Nat} {t u : Token} (hij : i ≤ j)
    (hi : l.tokens[i]? = some t) (hj : l.tokens[j]? = some u) :
    t.start ≤ u.start ∧ t.stop ≤ u.stop := by
  rcases Nat.lt_or_eq_of_le hij with hlt | rfl
  · have hle := h.tokens i j t u hlt hi hj
    have ht := t.start_le_stop
    have hu := u.start_le_stop
    omega
  · obtain rfl : t = u := Option.some.inj (hi.symm.trans hj)
    omega

theorem index_le_index (h : l.Sound) {p q i j : Nat} (hpq : p ≤ q) (hp : l.code[p]? = some i)
    (hq : l.code[q]? = some j) : i ≤ j := by
  rcases Nat.lt_or_eq_of_le hpq with hlt | rfl
  · exact Nat.le_of_lt (h.indices p q i j hlt hp hq)
  · exact Nat.le_of_eq (Option.some.inj (hp.symm.trans hq))

/-! ## Where declarations begin and end -/

theorem withLeadingComments_le (l : Layout) (line i : Nat) : l.withLeadingComments line i ≤ i := by
  induction i generalizing line with
  | zero => exact Nat.le_refl 0
  | succ i ih =>
    unfold withLeadingComments
    split
    · split
      · exact Nat.le_succ_of_le (ih _)
      · exact Nat.le_refl _
    · exact Nat.le_refl _

/-- The start of a token or of its line. -/
theorem lineStartOrToken_spec (h : l.Sound) (index : Nat) {t : Token} (ht : t ∈ l.tokens) :
    l.lineStartOrToken index t ≤ t.start ∧ Text.IsOffset l.text (l.lineStartOrToken index t) := by
  unfold lineStartOrToken
  rw [h.lines]
  split
  · exact ⟨LineTable.startOfLineAt_le _ _, LineTable.isOffset_startOfLineAt _ _⟩
  · exact ⟨Nat.le_refl _, (h.token t ht).1⟩

/-- A declaration begins at its first token or before. -/
theorem startOffset_spec (h : l.Sound) {p i : Nat} {t : Token} (hp : l.codeToken? p = some (i, t)) :
    l.startOffset p ≤ t.start ∧ Text.IsOffset l.text (l.startOffset p) := by
  obtain ⟨-, ht⟩ := of_codeToken? hp
  unfold startOffset
  rw [hp]
  dsimp only
  have hle := withLeadingComments_le l (l.firstLine t) i
  split
  · exact ⟨Nat.le_refl _, (h.token t (Array.mem_of_getElem? ht)).1⟩
  · next u hu =>
    obtain ⟨hspec, hoffset⟩ := lineStartOrToken_spec h _ (Array.mem_of_getElem? hu)
    exact ⟨Nat.le_trans hspec (start_le_start h hle hu ht).1, hoffset⟩

/-- A declaration ends where its last token does or behind it. -/
theorem endOffset_spec (h : l.Sound) {p i : Nat} {t : Token} (hp : l.codeToken? p = some (i, t)) :
    t.stop ≤ l.endOffset p ∧ Text.IsOffset l.text (l.endOffset p) := by
  obtain ⟨-, ht⟩ := of_codeToken? hp
  have hoffset := (h.token t (Array.mem_of_getElem? ht)).2.1
  unfold endOffset
  rw [hp]
  dsimp only
  split
  · next u hu =>
    split
    · exact ⟨(start_le_start h (Nat.le_succ i) ht hu).2, (h.token u (Array.mem_of_getElem? hu)).2.1⟩
    · exact ⟨Nat.le_refl _, hoffset⟩
  · exact ⟨Nat.le_refl _, hoffset⟩

/-- **The range that belongs to a declaration that fits.** -/
theorem isIn_full (h : l.Sound) {first last : Nat} (hle : first ≤ last) (hlast : last < l.code.size) :
    Span.IsIn l.text ⟨l.startOffset first, l.endOffset last⟩ := by
  obtain ⟨i, t, hi, hcodeI, htokenI⟩ := exists_codeToken? h (Nat.lt_of_le_of_lt hle hlast)
  obtain ⟨j, u, hj, hcodeJ, htokenJ⟩ := exists_codeToken? h hlast
  obtain ⟨hstart, hstartOffset⟩ := startOffset_spec h hi
  obtain ⟨hstop, hstopOffset⟩ := endOffset_spec h hj
  have hordered := start_le_start h (index_le_index h hle hcodeI hcodeJ) htokenI htokenJ
  have hu := u.start_le_stop
  exact ⟨by dsimp only; omega, hstartOffset, hstopOffset⟩

/-- **The range of a body that fits is there.** -/
theorem isIn_bodySpan? (h : l.Sound) {first last : Nat} {b : BodyExtent} (hb : b.Within first last)
    (hlast : last < l.code.size) : ∃ span, l.bodySpan? b = some span ∧ span.IsIn l.text := by
  cases b with
  | block opening closing =>
    obtain ⟨-, hinner, hle⟩ := hb
    obtain ⟨i, t, hi, hcodeI, htokenI⟩ := exists_codeToken? h (p := opening) (by omega)
    obtain ⟨k, -, -, hcodeK, -⟩ := exists_codeToken? h (p := opening + 1) (by omega)
    obtain ⟨j, u, hj, hcodeJ, htokenJ⟩ := exists_codeToken? h (p := closing) (by omega)
    have hik := h.indices opening (opening + 1) i k (Nat.lt_succ_self _) hcodeI hcodeK
    have hkj := h.indices (opening + 1) closing k j hinner hcodeK hcodeJ
    obtain ⟨hjlt, -⟩ := Array.getElem?_eq_some_iff.mp htokenJ
    -- a token stands between the two braces, so the first one there is not behind the last one
    obtain ⟨v, hv⟩ : ∃ v, l.tokens[i + 1]? = some v := ⟨_, Array.getElem?_eq_getElem (by omega)⟩
    obtain ⟨w, hw⟩ : ∃ w, l.tokens[j - 1]? = some w := ⟨_, Array.getElem?_eq_getElem (by omega)⟩
    have hordered : v.start ≤ w.start := (start_le_start h (by omega) hv hw).1
    have hstop := w.start_le_stop
    have hvOffset := (h.token v (Array.mem_of_getElem? hv)).1
    have hwOffset := (h.token w (Array.mem_of_getElem? hw)).2.1
    refine ⟨⟨if l.firstLine v = l.firstLine t then v.start else l.lines.startOfLineAt v.start, w.stop⟩,
      ?_, ?_⟩
    · simp only [bodySpan?, between?, hi, hj, hv, hw, Option.bind_eq_bind, Option.bind_some,
        Option.pure_def]
    · rw [h.lines]
      have hline := LineTable.startOfLineAt_le l.text v.start
      split
      · exact ⟨by dsimp only; omega, hvOffset, hwOffset⟩
      · exact ⟨by dsimp only; omega, LineTable.isOffset_startOfLineAt _ _, hwOffset⟩
  | expression start stop =>
    obtain ⟨-, hle, hstop⟩ := hb
    obtain ⟨i, t, hi, hcodeI, htokenI⟩ := exists_codeToken? h (p := start) (by omega)
    obtain ⟨j, u, hj, hcodeJ, htokenJ⟩ := exists_codeToken? h (p := stop) (by omega)
    have hordered := start_le_start h (index_le_index h hle hcodeI hcodeJ) htokenI htokenJ
    have hu := u.start_le_stop
    refine ⟨⟨t.start, u.stop⟩, ?_, by dsimp only; omega, (h.token t (Array.mem_of_getElem? htokenI)).1,
      (h.token u (Array.mem_of_getElem? htokenJ)).2.1⟩
    simp only [bodySpan?, hi, hj, Option.bind_eq_bind, Option.bind_some, Option.pure_def]

end Layout

namespace SourceFile

/-- Every index of a token, position in the code, index of a declaration and range of the text is in its
place. The declarations stand for entries of the outline whose bodies, where they have one, are found. -/
structure Sound (file : SourceFile) : Prop where
  layout : file.layout.Sound
  entries : ∃ entries : List OutlineEntry,
    file.declarations = (entries.map file.layout.declaration).toArray ∧
      ∀ e ∈ entries, e.declared.Fits file.layout.code.size ∧
        ∀ b ∈ e.declared.body, (file.layout.bodySpan? b).isSome
  parent : ∀ (i : Nat) (d : Declaration), file.declarations[i]? = some d → ∀ p ∈ d.parent, p < i
  full : ∀ d ∈ file.declarations, d.full.IsIn file.layout.text
  body : ∀ d ∈ file.declarations, ∀ span ∈ d.body, span.IsIn file.layout.text

/-- A declaration stands for an entry that fits the code. -/
theorem Sound.exists_entry {file : SourceFile} (h : file.Sound) {d : Declaration} (hd : d ∈ file.declarations) :
    ∃ e, d = file.layout.declaration e ∧ e.declared.Fits file.layout.code.size := by
  obtain ⟨entries, heq, hfits⟩ := h.entries
  rw [heq] at hd
  obtain ⟨e, he, rfl⟩ := List.mem_map.mp (List.mem_toArray.mp hd)
  exact ⟨e, rfl, (hfits e he).1⟩

theorem sound_of_parse? {text : Text} {file : SourceFile} (h : parse? text = some file) :
    file.Sound := by
  obtain ⟨nodes, hnodes, rfl⟩ := Option.map_eq_some_iff.mp h
  have hlayout := Layout.sound_ofText text
  have hfits : ∀ e ∈ OutlineNode.entriesAll none 0 nodes,
      e.declared.Fits (Layout.ofText text).code.size := by
    intro e he
    rw [Layout.size_code_ofText]
    exact OutlineNode.fits_of_mem_entriesAll (Outline.fits_of_read? hnodes) he
  refine ⟨hlayout, ⟨_, rfl, ?_⟩, ?_, ?_, ?_⟩
  · intro e he
    refine ⟨hfits e he, ?_⟩
    intro b hb
    obtain ⟨span, hspan, -⟩ := Layout.isIn_bodySpan? hlayout ((hfits e he).body b hb) (hfits e he).lt
    rw [hspan]
    rfl
  · intro i d hd
    rw [List.getElem?_toArray, List.getElem?_map] at hd
    obtain ⟨e, he, rfl⟩ := Option.map_eq_some_iff.mp hd
    intro p hp
    have hlt : p < 0 + i := OutlineNode.parent_lt_of_getElem?_entriesAll (by simp) he p hp
    omega
  · intro d hd
    obtain ⟨e, he, rfl⟩ := List.mem_map.mp (List.mem_toArray.mp hd)
    exact Layout.isIn_full hlayout (hfits e he).ordered (hfits e he).lt
  · intro d hd span hspan
    obtain ⟨e, he, rfl⟩ := List.mem_map.mp (List.mem_toArray.mp hd)
    obtain ⟨b, hb, hspan⟩ := Option.bind_eq_some_iff.mp hspan
    obtain ⟨span', hspan', hin⟩ :=
      Layout.isIn_bodySpan? hlayout ((hfits e he).body b hb) (hfits e he).lt
    obtain rfl : span = span' := Option.some.inj (hspan.symm.trans hspan')
    exact hin

/-- **Which texts have no source file, and that everything is in its place in the others.** There is none
just where the reading, at some place inside of a type, finds the header of a namespace that runs to the
end of the code. On the way to a name, the depth of type arguments is positive until they are left. -/
theorem parse?_sound (text : Text) :
    (parse? text = none ↔
      ∃ r, Outline.Reaches (Outline.Reading.start (codeOf (tokenize text))) r ∧ r.Overruns ∧
        ∃ b ∈ r.outer, b.kind = .type) ∧
      (∀ file, parse? text = some file → file.Sound) ∧
      ∀ (t : Code) (p : List Code), t.kind = .angleClose →
        Header.dropTypeArguments? 0 (t :: p) = none →
        ∃ depth, 0 < depth ∧
          ∀ s, Header.dropTypeArguments? 0 (t :: p ++ s) = Header.dropTypeArguments? depth s := by
  refine ⟨?_, fun file => sound_of_parse?, fun t p => Header.dropTypeArguments?_depth_pos⟩
  unfold parse?
  rw [Option.map_eq_none_iff]
  exact Outline.read?_eq_none_iff _

/-- A text whose last header is that of a namespace, inside of a type that is not closed. -/
def namespaceInType : Text := "class A \x7b namespace B".toList

/-- It has no source file. -/
theorem parse?_namespaceInType : parse? namespaceInType = none := by
  decide +kernel

/-- What keeps it from having one, and a text that has one. -/
theorem parse?_sound_namespaceInType :
    (∃ r, Outline.Reaches (Outline.Reading.start (codeOf (tokenize namespaceInType))) r ∧
        r.Overruns ∧ ∃ b ∈ r.outer, b.kind = .type) ∧
      ∃ file, parse? "class A;".toList = some file ∧ file.Sound := by
  have hnone : parse? namespaceInType = none := by decide +kernel
  have hsome : (parse? "class A;".toList).isSome := by decide +kernel
  obtain ⟨file, hfile⟩ := Option.isSome_iff_exists.mp hsome
  exact ⟨(parse?_sound namespaceInType).1.mp hnone, file, hfile, (parse?_sound _).2.1 file hfile⟩

end SourceFile

end Excerpt
