import Excerpt.Proofs.Source.Nesting
import Mathlib.Data.List.Forall2

/-!
# Excerpt — sources with the same code

Comments, preprocessor lines and white space stand between the tokens of the code, and decide only where in the
text a declaration lies. What is declared, under which names, and which tokens of the code belong to it is told by
the code alone.

* **`Layout.Covers`** — the tokens of the code that lie in a range are those from one position to another.
* **`Layout.covers_full`**, **`Layout.covers_bodySpan?`** — the ranges of a declaration cover what the outline says.
* **`SourceFile.Alike`** — two declarations of two sources are the same but for their places in the texts.
* **`SourceFile.parse?_of_codeOf_eq`** — sources with the same code have the same declarations.
-/

namespace Excerpt

namespace Layout

/-! ## The code in a range -/

/-- The token `c` of the code stands at the position and lies in the range. -/
def HoldsCode (l : Layout) (span : Span) (p : Nat) (c : Code) : Prop :=
  ∃ i t, l.codeToken? p = some (i, t) ∧ c = ⟨t.kind, t.text⟩ ∧ span.start ≤ t.start ∧ t.stop ≤ span.stop

/-- The range starts in front of the token at the position `first` and of no earlier one, and stops behind the one
at `last` and behind no later one. -/
def Covers (l : Layout) (span : Span) (first last : Nat) : Prop :=
  ∀ (p i : Nat) (t : Token), l.codeToken? p = some (i, t) →
    (span.start ≤ t.start ↔ first ≤ p) ∧ (t.stop ≤ span.stop ↔ p ≤ last)

variable {text : Text}

/-- The positions in the code are those of the tokens that are picked from all tokens. -/
theorem getElem?_codeOf {p i : Nat} {t : Token} (hp : (ofText text).codeToken? p = some (i, t)) :
    (codeOf (tokenize text))[p]? = some ⟨t.kind, t.text⟩ := by
  obtain ⟨hcode, htoken⟩ := of_codeToken? hp
  have hpicked : (ofText text).code.toList.map (fun i => (tokenize text)[i]?) =
      ((tokenize text).filter fun t => ! t.kind.isTrivia).map some := by
    have hrange : (ofText text).code.toList = (List.range (tokenize text).length).filter
        ((Option.any fun t => ! t.kind.isTrivia) ∘ fun i => (tokenize text)[i]?) := by
      rw [ofText, Array.toList_filter, Array.toList_range, List.size_toArray]
      simp only [List.getElem?_toArray]
      rfl
    rw [hrange, ← List.filter_map, map_range_getElem?, List.filter_map]
    rfl
  have hget := congrArg (fun l => l[p]?) hpicked
  simp only [List.getElem?_map, Array.getElem?_toList, hcode, Option.map_some] at hget
  rw [codeOf, List.getElem?_map]
  have htoken' : (tokenize text)[i]? = some t := by
    rwa [ofText, List.getElem?_toArray] at htoken
  rw [htoken'] at hget
  obtain ⟨u, hu, heq⟩ := Option.map_eq_some_iff.mp hget.symm
  rw [hu, Option.some.inj heq, Option.map_some]

/-- **The code that a range holds** is that from the one position to the other. -/
theorem Covers.holdsCode_iff {span : Span} {first last : Nat} (h : (ofText text).Covers span first last)
    (p : Nat) (c : Code) :
    (ofText text).HoldsCode span p c ↔ first ≤ p ∧ p ≤ last ∧ (codeOf (tokenize text))[p]? = some c := by
  constructor
  · rintro ⟨i, t, hp, rfl, hstart, hstop⟩
    exact ⟨(h p i t hp).1.mp hstart, (h p i t hp).2.mp hstop, getElem?_codeOf hp⟩
  · rintro ⟨hfirst, hlast, hc⟩
    obtain ⟨hlt, -⟩ := List.getElem?_eq_some_iff.mp hc
    rw [← size_code_ofText] at hlt
    obtain ⟨i, t, hp, -, -⟩ := exists_codeToken? (sound_ofText text) hlt
    obtain rfl : ⟨t.kind, t.text⟩ = c := Option.some.inj ((getElem?_codeOf hp).symm.trans hc)
    exact ⟨i, t, hp, rfl, (h p i t hp).1.mpr hfirst, (h p i t hp).2.mpr hlast⟩

/-! ## The ranges of declarations -/

theorem start_lt_stop_of_codeToken? {p i : Nat} {t : Token}
    (hp : (ofText text).codeToken? p = some (i, t)) : t.start < t.stop := by
  apply start_lt_stop_of_mem_tokensFrom
  exact List.mem_toArray.mp (Array.mem_of_getElem? (of_codeToken? hp).2)

/-- The tokens of the code stand in the text in the order of their positions. -/
theorem start_le_start_iff {p q i j : Nat} {t u : Token} (hp : (ofText text).codeToken? p = some (i, t))
    (hq : (ofText text).codeToken? q = some (j, u)) :
    (t.start ≤ u.start ↔ p ≤ q) ∧ (t.stop ≤ u.stop ↔ p ≤ q) := by
  have hsound := sound_ofText text
  obtain ⟨hcodeP, htokenP⟩ := of_codeToken? hp
  obtain ⟨hcodeQ, htokenQ⟩ := of_codeToken? hq
  have hposP := start_lt_stop_of_codeToken? hp
  have hposQ := start_lt_stop_of_codeToken? hq
  by_cases hle : p ≤ q
  · have hordered := start_le_start hsound (index_le_index hsound hle hcodeP hcodeQ) htokenP htokenQ
    exact ⟨iff_of_true hordered.1 hle, iff_of_true hordered.2 hle⟩
  · -- the later token starts where the earlier one has stopped
    have hij := hsound.indices q p j i (Nat.lt_of_not_le hle) hcodeQ hcodeP
    have hapart := hsound.tokens j i u t hij htokenQ htokenP
    exact ⟨iff_of_false (by omega) hle, iff_of_false (by omega) hle⟩

/-- **The range of a declaration covers the tokens from its first to its last one.** The comments that it takes
along are no code. -/
theorem covers_full {first last : Nat} (hle : first ≤ last) (hlast : last < (ofText text).code.size) :
    (ofText text).Covers ⟨(ofText text).startOffset first, (ofText text).endOffset last⟩ first last := by
  intro p i t hp
  have hpos := start_lt_stop_of_codeToken? hp
  have hsize : p < (ofText text).code.size := (Array.getElem?_eq_some_iff.mp (of_codeToken? hp).1).1
  constructor
  · refine ⟨fun hstart => Nat.le_of_not_lt fun hlt => ?_, fun hfirst => startOffset_le_start hfirst hp⟩
    -- a token in front of the first one ends in front of the range
    have hbefore : (ofText text).endOffset p ≤ (ofText text).startOffset first :=
      endOffset_le_startOffset hlt (Nat.lt_of_le_of_lt hle hlast)
    have hstop := stop_le_endOffset (Nat.le_refl p) hsize hp
    dsimp only at hstart
    omega
  · refine ⟨fun hstop => Nat.le_of_not_lt fun hlt => ?_, fun hend => stop_le_endOffset hend hlast hp⟩
    have hbehind : (ofText text).endOffset last ≤ (ofText text).startOffset p :=
      endOffset_le_startOffset hlt hsize
    have hstart := startOffset_le_start (Nat.le_refl p) hp
    dsimp only at hstop
    omega

end Layout

/-- The position of the first token of a body. -/
def BodyExtent.first : BodyExtent → Nat
  | block opening _ => opening + 1
  | expression first _ => first

/-- The position of the last token of a body. -/
def BodyExtent.last : BodyExtent → Nat
  | block _ closing => closing - 1
  | expression _ last => last

namespace Layout

variable {text : Text}

/-- What stands between two tokens covers the tokens of the code there: it begins with the first token behind the
one, or with its line, and ends with the last token before the other. -/
theorem covers_between? {opening closing i j : Nat} {t u : Token} (hlt : opening + 1 < closing)
    (hi : (ofText text).codeToken? opening = some (i, t))
    (hj : (ofText text).codeToken? closing = some (j, u)) {span : Span}
    (hspan : (ofText text).between? opening closing = some span) :
    (ofText text).Covers span (opening + 1) (closing - 1) := by
  have hsound := sound_ofText text
  obtain ⟨hcodeI, htokenI⟩ := of_codeToken? hi
  obtain ⟨hcodeJ, htokenJ⟩ := of_codeToken? hj
  have hij : i < j := hsound.indices opening closing i j (by omega) hcodeI hcodeJ
  have hafter := (between?_within hi hj hij hspan).1
  obtain ⟨hjlt, -⟩ := Array.getElem?_eq_some_iff.mp htokenJ
  obtain ⟨v, hv⟩ : ∃ v, (ofText text).tokens[i + 1]? = some v :=
    ⟨_, Array.getElem?_eq_getElem (by omega)⟩
  obtain ⟨w, hw⟩ : ∃ w, (ofText text).tokens[j - 1]? = some w :=
    ⟨_, Array.getElem?_eq_getElem (by omega)⟩
  have hbefore : w.stop ≤ u.start := hsound.tokens (j - 1) j w u (by omega) hw htokenJ
  simp only [between?, hi, hj, hv, hw, Option.bind_eq_bind, Option.bind_some, Option.pure_def,
    Option.some.injEq] at hspan
  have hstart : span.start ≤ v.start := by
    rw [← hspan]
    dsimp only
    split
    · exact Nat.le_refl _
    · exact LineTable.startOfLineAt_le text v.start
  have hstop : span.stop = w.stop := by rw [← hspan]
  intro p k c hp
  obtain ⟨hcodeK, htokenK⟩ := of_codeToken? hp
  have hpos := start_lt_stop_of_codeToken? hp
  constructor
  · constructor
    · intro hinside
      refine Nat.lt_of_not_le fun hle => ?_
      have hordered := (start_le_start_iff hp hi).1.mpr hle
      omega
    · intro hbehind
      have hik := hsound.indices opening p i k hbehind hcodeI hcodeK
      have hordered := (start_le_start hsound hik hv htokenK).1
      omega
  · rw [hstop]
    constructor
    · intro hinside
      refine Nat.le_sub_one_of_lt (Nat.lt_of_not_le fun hle => ?_)
      have hordered := (start_le_start_iff hj hp).1.mpr hle
      omega
    · intro hle
      have hkj := hsound.indices p closing k j (by omega) hcodeK hcodeJ
      exact (start_le_start hsound (Nat.le_sub_one_of_lt hkj) htokenK hw).2

/-- **The range of a body covers the tokens of the body.** -/
theorem covers_bodySpan? {first last : Nat} {b : BodyExtent} (hb : b.Within first last)
    (hlast : last < (ofText text).code.size) {span : Span}
    (hspan : (ofText text).bodySpan? b = some span) :
    (ofText text).Covers span b.first b.last := by
  have hsound := sound_ofText text
  cases b with
  | block opening closing =>
    obtain ⟨-, hinner, hclosing⟩ := hb
    obtain ⟨i, t, hi, -, -⟩ := exists_codeToken? hsound (p := opening) (by omega)
    obtain ⟨j, u, hj, -, -⟩ := exists_codeToken? hsound (p := closing) (by omega)
    exact covers_between? hinner hi hj hspan
  | expression start stop =>
    obtain ⟨-, hle, hend⟩ := hb
    obtain ⟨i, t, hi, -, -⟩ := exists_codeToken? hsound (p := start) (by omega)
    obtain ⟨j, u, hj, -, -⟩ := exists_codeToken? hsound (p := stop) (by omega)
    simp only [bodySpan?, hi, hj, Option.bind_eq_bind, Option.bind_some, Option.pure_def,
      Option.some.injEq] at hspan
    subst hspan
    intro p k c hp
    exact ⟨(start_le_start_iff hi hp).1, (start_le_start_iff hp hj).2⟩

end Layout

/-! ## Declarations of two sources -/

/-- The declarations are of one kind and name, and stand in the declaration of one index. -/
structure Declaration.SameEntry (d e : Declaration) : Prop where
  kind : d.kind = e.kind
  name : d.name = e.name
  parent : d.parent = e.parent

namespace SourceFile

/-- **The declarations, one of each source, are the same but for their places in the texts:** they are of one kind and
name, stand in the same declaration, hold the same tokens of the code, in their bodies as well, which both have or
neither has, and have the same paths. -/
structure Alike (f g : SourceFile) (d e : Declaration) : Prop extends d.SameEntry e where
  full : ∀ p c, f.layout.HoldsCode d.full p c ↔ g.layout.HoldsCode e.full p c
  body : Option.Rel (fun span span' => ∀ p c, f.layout.HoldsCode span p c ↔ g.layout.HoldsCode span' p c)
    d.body e.body
  path : ∀ path, f.matchesPath d path = g.matchesPath e path

/-- Names are matched alike where all declarations are entered alike. Induction along the names, from the inside
out: what contains a declaration has the same index in both sources. -/
theorem namesMatch_eq_of_sameEntry {f g : SourceFile}
    (h : ∀ i : Nat, Option.Rel Declaration.SameEntry f.declarations[i]? g.declarations[i]?) (names : List Text)
    {d e : Option Declaration} (hde : Option.Rel Declaration.SameEntry d e) :
    f.namesMatch d names = g.namesMatch e names := by
  induction names generalizing d e with
  | nil => rw [namesMatch, namesMatch]
  | cons name outer ih =>
    cases hde with
    | none => rfl
    | @some d e hentry =>
      have houter : Option.Rel Declaration.SameEntry (d.parent.bind fun i => f.declarations[i]?)
          (e.parent.bind fun i => g.declarations[i]?) := by
        rw [hentry.parent]
        cases e.parent with
        | none => exact .none
        | some i => exact h i
      rw [namesMatch, namesMatch, hentry.kind, hentry.name, ih houter]

section SharedOutline

variable {s t : Text} {nodes : List OutlineNode}

/-- The declarations of one index come from one entry of the outline. -/
theorem sameEntry_getElem? (i : Nat) :
    Option.Rel Declaration.SameEntry (ofOutline s nodes).declarations[i]?
      (ofOutline t nodes).declarations[i]? := by
  rw [ofOutline, ofOutline, List.getElem?_toArray, List.getElem?_toArray, List.getElem?_map, List.getElem?_map]
  cases (OutlineNode.entriesAll none 0 nodes)[i]? with
  | none => exact .none
  | some entry => exact .some ⟨rfl, rfl, rfl⟩

/-- An entry that fits the code stands for declarations that are alike. -/
theorem alike_declaration (hcode : codeOf (tokenize s) = codeOf (tokenize t)) {entry : OutlineEntry}
    (hfits : entry.declared.Fits (codeOf (tokenize s)).length) :
    (ofOutline s nodes).Alike (ofOutline t nodes) ((Layout.ofText s).declaration entry)
      ((Layout.ofText t).declaration entry) := by
  have hlast : entry.declared.last < (Layout.ofText s).code.size := by
    rw [Layout.size_code_ofText]
    exact hfits.lt
  have hlast' : entry.declared.last < (Layout.ofText t).code.size := by
    rw [Layout.size_code_ofText, ← hcode]
    exact hfits.lt
  have hentry : ((Layout.ofText s).declaration entry).SameEntry ((Layout.ofText t).declaration entry) :=
    ⟨rfl, rfl, rfl⟩
  -- ranges that cover the same positions hold the same code
  have hholds : ∀ {span span' : Span} {first last : Nat}, (Layout.ofText s).Covers span first last →
      (Layout.ofText t).Covers span' first last →
        ∀ p c, (Layout.ofText s).HoldsCode span p c ↔ (Layout.ofText t).HoldsCode span' p c := by
    intro span span' first last h h' p c
    rw [h.holdsCode_iff, h'.holdsCode_iff, hcode]
  refine ⟨hentry, ?full, ?body, ?path⟩
  case full => exact hholds (Layout.covers_full hfits.ordered hlast) (Layout.covers_full hfits.ordered hlast')
  case body =>
    show Option.Rel _ (entry.declared.body.bind (Layout.ofText s).bodySpan?)
      (entry.declared.body.bind (Layout.ofText t).bodySpan?)
    cases hbody : entry.declared.body with
    | none => exact .none
    | some b =>
      have hwithin := hfits.body b hbody
      obtain ⟨span, hspan, -⟩ := Layout.isIn_bodySpan? (Layout.sound_ofText s) hwithin hlast
      obtain ⟨span', hspan', -⟩ := Layout.isIn_bodySpan? (Layout.sound_ofText t) hwithin hlast'
      rw [Option.bind_some, Option.bind_some, hspan, hspan']
      apply Option.Rel.some
      exact hholds (Layout.covers_bodySpan? hwithin hlast hspan) (Layout.covers_bodySpan? hwithin hlast' hspan')
  case path =>
    intro path
    exact namesMatch_eq_of_sameEntry sameEntry_getElem? _ (.some hentry)

end SharedOutline

/-- **Sources with the same code have the same declarations**, whatever comments, preprocessor lines and white space
stand between its tokens: either neither source has an outline, or both have declarations that are alike, one by
one. -/
theorem parse?_of_codeOf_eq {s t : Text} (h : codeOf (tokenize s) = codeOf (tokenize t)) :
    Option.Rel (fun f g => f.layout = Layout.ofText s ∧ g.layout = Layout.ofText t ∧
      List.Forall₂ (f.Alike g) f.declarations.toList g.declarations.toList) (parse? s) (parse? t) := by
  cases hs : parse? s with
  | none =>
    -- there is no outline of the code, which both sources have
    have ht : parse? t = none := by
      rw [parse?, Option.map_eq_none_iff] at hs ⊢
      exact (congrArg Outline.read? h).symm.trans hs
    rw [ht]
    exact .none
  | some f =>
    obtain ⟨nodes, hnodes, rfl, -⟩ := exists_outline_of_parse? hs
    have ht : parse? t = some (ofOutline t nodes) := by
      rw [h] at hnodes
      exact Option.map_eq_some_iff.mpr ⟨nodes, hnodes, rfl⟩
    rw [ht]
    refine .some ⟨rfl, rfl, ?_⟩
    rw [ofOutline, ofOutline, List.forall₂_map_left_iff, List.forall₂_map_right_iff, List.forall₂_same]
    intro entry hentry
    apply alike_declaration h
    exact OutlineNode.fits_of_mem_entriesAll (Outline.fits_of_read? hnodes) hentry

/-- A type with a property, laid out over lines with comments and a preprocessor line. -/
def spaciousType : Text := "// A\nclass A \x7b\n#if X\n  int F /* f */\n    => 1; // 1\n\x7d".toList

/-- The same type on one line. -/
def denseType : Text := "class A\x7bint F=>1;\x7d".toList

/-- Both have two declarations, which are alike. -/
theorem parse?_of_codeOf_eq_spaciousType :
    codeOf (tokenize spaciousType) = codeOf (tokenize denseType) ∧
      ∃ f g, parse? spaciousType = some f ∧ parse? denseType = some g ∧ f.declarations.size = 2 ∧
        List.Forall₂ (f.Alike g) f.declarations.toList g.declarations.toList := by
  have hcode : codeOf (tokenize spaciousType) = codeOf (tokenize denseType) := by decide +kernel
  have hsome : (parse? denseType).any (·.declarations.size = 2) = true := by decide +kernel
  obtain ⟨g, hg, hsize⟩ := (Option.any_eq_true _ _).mp hsome
  have halike := parse?_of_codeOf_eq hcode
  rw [hg] at halike
  cases hf : parse? spaciousType with
  | none =>
    rw [hf] at halike
    cases halike
  | some f =>
    rw [hf] at halike
    cases halike with
    | some h =>
      have hlength := h.2.2.length_eq
      rw [Array.length_toList, Array.length_toList] at hlength
      exact ⟨hcode, f, g, rfl, hg, hlength.trans (by simpa using hsize), h.2.2⟩

end SourceFile

end Excerpt
