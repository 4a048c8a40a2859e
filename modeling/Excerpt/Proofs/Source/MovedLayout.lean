import Excerpt.Proofs.Source.Ranges
import Excerpt.Proofs.Source.Relocation

/-!
# Excerpt — ranges in a text that is moved

Where characters are taken out of a text between or within its tokens, the tokens are moved and stay on their lines.
The comments of a declaration are told by comparing lines, so they stay with it, and its ranges begin and end at the
offsets to which the old ones are moved.

* **`Layout.IsMoved`** — the tokens of one layout are those of another one, moved, and on the same lines.
* **`IsMoved.withLeadingComments`**, **`IsMoved.startOffset`**, **`IsMoved.endOffset`** — the comments of a
  declaration, and the offsets at which it begins and ends.
* **`IsMoved.declaration`** — the ranges of a declaration.
-/

namespace Excerpt

namespace Layout

/-- The tokens of `m` are those of `l`, each changed by `τ`: offsets are moved by `φ`, and lines stay. -/
structure IsMoved (l m : Layout) (φ : Nat → Nat) (τ : Token → Token) : Prop where
  tokens : m.tokens = l.tokens.map τ
  code : m.code = l.code
  kind : ∀ t, (τ t).kind = t.kind
  start : ∀ t ∈ l.tokens, (τ t).start = φ t.start
  stop : ∀ t ∈ l.tokens, (τ t).stop = φ t.stop
  firstLine : ∀ t ∈ l.tokens, m.firstLine (τ t) = l.firstLine t
  lastLine : ∀ t ∈ l.tokens, m.lastLine (τ t) = l.lastLine t
  lineStart : ∀ t ∈ l.tokens, m.lines.startOfLineAt (τ t).start = φ (l.lines.startOfLineAt t.start)
  width : Text.width m.text = φ (Text.width l.text)

/-- Code is told by its kind. -/
theorem code_ofText_eq {s s' : Text} {τ : Token → Token}
    (htokens : (ofText s').tokens = (ofText s).tokens.map τ) (hkind : ∀ t, (τ t).kind = t.kind) :
    (ofText s').code = (ofText s).code := by
  have hsize : (ofText s').tokens.size = (ofText s).tokens.size := by rw [htokens, Array.size_map]
  show (Array.range (ofText s').tokens.size).filter _ = (Array.range (ofText s).tokens.size).filter _
  rw [hsize]
  congr 1
  funext i
  show ((ofText s').tokens[i]?).any _ = _
  rw [htokens, Array.getElem?_map, Option.any_map]
  simp only [hkind]
  rfl

namespace IsMoved

variable {l m : Layout} {φ : Nat → Nat} {τ : Token → Token}

theorem getElem?_tokens (h : IsMoved l m φ τ) (i : Nat) : m.tokens[i]? = (l.tokens[i]?).map τ := by
  rw [h.tokens, Array.getElem?_map]

theorem codeToken? (h : IsMoved l m φ τ) (position : Nat) :
    m.codeToken? position = (l.codeToken? position).map fun found => (found.1, τ found.2) := by
  unfold Layout.codeToken?
  rw [h.code]
  cases l.code[position]? with
  | none => rfl
  | some i =>
    show (do let token ← m.tokens[i]?; pure (i, token)) = _
    rw [h.getElem?_tokens]
    show _ = (do let token ← l.tokens[i]?; pure (i, token)).map _
    cases l.tokens[i]? <;> rfl

theorem startsLine (h : IsMoved l m φ τ) (i : Nat) : m.startsLine i = l.startsLine i := by
  cases i with
  | zero => rfl
  | succ i =>
    rw [Layout.startsLine, Layout.startsLine, h.getElem?_tokens, h.getElem?_tokens]
    cases hprevious : l.tokens[i]? with
    | none => rfl
    | some previous =>
      cases hnext : l.tokens[i + 1]? with
      | none => rfl
      | some t =>
        simp only [Option.map_some, h.firstLine t (Array.mem_of_getElem? hnext),
          h.lastLine previous (Array.mem_of_getElem? hprevious)]

/-- The comments above a declaration stay with it. Induction along the tokens before it. -/
theorem withLeadingComments (h : IsMoved l m φ τ) (line i : Nat) :
    m.withLeadingComments line i = l.withLeadingComments line i := by
  induction i generalizing line with
  | zero => rfl
  | succ i ih =>
    unfold Layout.withLeadingComments
    rw [h.getElem?_tokens]
    cases hprevious : l.tokens[i]? with
    | none => rfl
    | some previous =>
      have hmem := Array.mem_of_getElem? hprevious
      simp only [Option.map_some, h.kind, h.firstLine previous hmem, h.lastLine previous hmem, h.startsLine, ih]

/-! ## Ranges of declarations -/

theorem lineStartOrToken (h : IsMoved l m φ τ) (i : Nat) {t : Token} (ht : t ∈ l.tokens) :
    m.lineStartOrToken i (τ t) = φ (l.lineStartOrToken i t) := by
  unfold Layout.lineStartOrToken
  rw [h.startsLine]
  split
  · exact h.lineStart t ht
  · exact h.start t ht

theorem startOffset (h : IsMoved l m φ τ) (position : Nat) :
    m.startOffset position = φ (l.startOffset position) := by
  unfold Layout.startOffset
  rw [h.codeToken?]
  cases hfound : l.codeToken? position with
  | none => exact h.width
  | some found =>
    obtain ⟨i, t⟩ := found
    have ht := Array.mem_of_getElem? (of_codeToken? hfound).2
    simp only [Option.map_some, h.firstLine t ht, h.withLeadingComments, h.getElem?_tokens]
    cases hfirst : l.tokens[l.withLeadingComments (l.firstLine t) i]? with
    | none => exact h.start t ht
    | some first => exact h.lineStartOrToken _ (Array.mem_of_getElem? hfirst)

theorem endOffset (h : IsMoved l m φ τ) (position : Nat) :
    m.endOffset position = φ (l.endOffset position) := by
  unfold Layout.endOffset
  rw [h.codeToken?]
  cases hfound : l.codeToken? position with
  | none => exact h.width
  | some found =>
    obtain ⟨i, t⟩ := found
    have ht := Array.mem_of_getElem? (of_codeToken? hfound).2
    simp only [Option.map_some, h.getElem?_tokens]
    cases hnext : l.tokens[i + 1]? with
    | none => exact h.stop t ht
    | some next =>
      -- whether the comment behind the declaration belongs to it is a matter of lines
      have hmem := Array.mem_of_getElem? hnext
      simp only [Option.map_some, h.kind, h.firstLine t ht, h.firstLine next hmem]
      split
      · exact h.stop next hmem
      · exact h.stop t ht

theorem anchor (h : IsMoved l m φ τ) (position : Nat) : m.anchor position = φ (l.anchor position) := by
  unfold Layout.anchor
  rw [h.codeToken?]
  cases hfound : l.codeToken? position with
  | none => exact h.width
  | some found => exact h.start found.2 (Array.mem_of_getElem? (of_codeToken? hfound).2)

theorem between? (h : IsMoved l m φ τ) (opening closing : Nat) :
    m.between? opening closing = (l.between? opening closing).map (Span.moved φ) := by
  unfold Layout.between?
  simp only [h.codeToken?, h.getElem?_tokens, Option.bind_eq_bind, Option.bind_map, Option.map_bind,
    Function.comp_def]
  cases hopening : l.codeToken? opening with
  | none => rfl
  | some i =>
    have hopen := Array.mem_of_getElem? (of_codeToken? hopening).2
    simp only [Option.bind_some]
    congr 1
    funext j
    cases hfirst : l.tokens[i.1 + 1]? with
    | none => rfl
    | some first =>
      have hfirst := Array.mem_of_getElem? hfirst
      cases hlast : l.tokens[j.1 - 1]? with
      | none => rfl
      | some last =>
        simp only [Option.bind_some, Option.pure_def, Option.map_some, Span.moved, h.firstLine first hfirst,
          h.firstLine i.2 hopen, h.stop last (Array.mem_of_getElem? hlast)]
        split
        · rw [h.start first hfirst]
        · rw [h.lineStart first hfirst]

theorem bodySpan? (h : IsMoved l m φ τ) (b : BodyExtent) :
    m.bodySpan? b = (l.bodySpan? b).map (Span.moved φ) := by
  cases b with
  | block opening closing => exact h.between? opening closing
  | expression first last =>
    rw [Layout.bodySpan?, Layout.bodySpan?, h.codeToken?, h.codeToken?]
    cases hfirst : l.codeToken? first with
    | none => rfl
    | some found =>
      cases hlast : l.codeToken? last with
      | none => rfl
      | some found' =>
        show some (Span.mk (τ found.2).start (τ found'.2).stop) =
          some (Span.mk (φ found.2.start) (φ found'.2.stop))
        rw [h.start found.2 (Array.mem_of_getElem? (of_codeToken? hfirst).2),
          h.stop found'.2 (Array.mem_of_getElem? (of_codeToken? hlast).2)]

/-- **The ranges of a declaration are moved with its tokens.** -/
theorem declaration (h : IsMoved l m φ τ) (e : OutlineEntry) :
    m.declaration e = (l.declaration e).moved φ := by
  have hbody : e.declared.body.bind m.bodySpan? =
      (e.declared.body.bind l.bodySpan?).map (Span.moved φ) := by
    cases e.declared.body with
    | none => rfl
    | some b => exact h.bodySpan? b
  unfold Layout.declaration
  simp only [h.startOffset, h.endOffset, h.anchor, hbody]
  rfl

end IsMoved

end Layout

end Excerpt
