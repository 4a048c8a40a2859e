import Excerpt.Proofs.Source.BareLayout

/-!
# Excerpt — markers without carriage returns

Comments and preprocessor lines take along the carriage return at the end of their line. What is read from a
marker is its first word or its beginning, and a label without white space at its ends, so the carriage return
does not matter.

* **`Text.SameLabel`** — two lines from which the same is read.
* **`Event.ofToken?_bare`** — a token is the same marker without carriage returns.
-/

namespace Excerpt

namespace Text

theorem dropPrefixIgnoreCase?_append_return {start : Text} (h : '\r' ∉ lower start) (s : Text) :
    dropPrefixIgnoreCase? start (s ++ ['\r']) = (dropPrefixIgnoreCase? start s).map (· ++ ['\r']) := by
  induction start generalizing s with
  | nil => rfl
  | cons p start ih =>
    obtain ⟨hp, hstart⟩ : ¬ '\r' = p.toLower ∧ '\r' ∉ lower start := by simpa [lower] using h
    cases s with
    | nil => exact if_neg (Ne.symm hp)
    | cons c s =>
      rw [List.cons_append, dropPrefixIgnoreCase?, dropPrefixIgnoreCase?]
      split
      · exact ih hstart s
      · rfl

/-- The first word of a line, and what follows the white space behind it. -/
def firstWord (line : Text) : Text × Text := (splitFirst? isWhiteSpace line).getD (line, [])

/-- The lines have the same first word, and the same label behind it. -/
structure SameLabel (l m : Text) : Prop where
  word : (firstWord l).1 = (firstWord m).1
  label : trim (firstWord l).2 = trim (firstWord m).2

theorem SameLabel.refl (l : Text) : SameLabel l l := ⟨rfl, rfl⟩

theorem sameLabel_append_return (s : Text) : SameLabel (s ++ ['\r']) s := by
  have hword : (s ++ ['\r']).takeWhile (! isWhiteSpace ·) = s.takeWhile (! isWhiteSpace ·) := by
    apply takeWhile_append_stop
    decide
  have hparts := List.takeWhile_append_dropWhile (p := (! isWhiteSpace ·)) (l := s)
  constructor <;> unfold firstWord splitFirst? <;> rw [hword, List.dropWhile_append]
  -- the carriage return is white space: it ends the word, or stands at the end of the label
  · cases hrest : s.dropWhile (! isWhiteSpace ·) with
    | nil =>
      rw [hrest, List.append_nil] at hparts
      exact hparts
    | cons c label => rfl
  · cases hrest : s.dropWhile (! isWhiteSpace ·) with
    | nil => rfl
    | cons c label =>
      show trim (label ++ ['\r']) = trim label
      apply trim_append_of_isBlank
      decide

theorem sameLabel_trimStart_append_return (s : Text) :
    SameLabel (trimStart (s ++ ['\r'])) (trimStart s) := by
  unfold trimStart
  rw [List.dropWhile_append]
  split
  · next hnil =>
    rw [List.isEmpty_iff.mp hnil]
    exact SameLabel.refl []
  · exact sameLabel_append_return _

end Text

namespace Event

theorem ofDirective?_eq (t : Token) :
    ofDirective? t =
      let parts := Text.firstWord (Text.trimStart (t.text.dropWhile (· = '#')))
      if Text.eqIgnoreCase parts.1 "region".toList then
        some (.opener .region (Text.trim parts.2) ⟨t.start, t.stop⟩)
      else if Text.eqIgnoreCase parts.1 "endregion".toList then some (.closer .region t.start)
      else none := rfl

section Bare

variable {s : Text} {t : Token} (δ : Declaration → Declaration)
  (htext : t.text = Text.bare t.text ∨ t.text = Text.bare t.text ++ ['\r'])
  (hstop : (t.bare s).stop = Text.bareOffset s t.stop)

include htext hstop

theorem ofDirective?_bare :
    ofDirective? (t.bare s) = (ofDirective? t).map (Event.moved (Text.bareOffset s) δ) := by
  have hlabel : Text.SameLabel (Text.trimStart (t.text.dropWhile (· = '#')))
      (Text.trimStart ((t.bare s).text.dropWhile (· = '#'))) := by
    rw [Token.text_bare]
    rcases htext with heq | heq
    · rw [← heq]
      exact Text.SameLabel.refl _
    · have hhash : t.text.dropWhile (· = '#') = (Text.bare t.text).dropWhile (· = '#') ++ ['\r'] := by
        rw [heq, List.dropWhile_append, ← heq]
        split
        · next hnil =>
          rw [List.isEmpty_iff.mp hnil]
          rfl
        · rfl
      rw [hhash]
      apply Text.sameLabel_trimStart_append_return
  rw [ofDirective?_eq, ofDirective?_eq]
  dsimp only
  rw [hlabel.word, hlabel.label, hstop]
  split
  · rfl
  · split <;> rfl

theorem ofComment?_bare :
    ofComment? (t.bare s) = (ofComment? t).map (Event.moved (Text.bareOffset s) δ) := by
  have hdrop : ∀ start : Text, '\r' ∉ Text.lower start →
      Text.dropPrefixIgnoreCase? start t.text = Text.dropPrefixIgnoreCase? start (Text.bare t.text) ∨
        Text.dropPrefixIgnoreCase? start t.text =
          (Text.dropPrefixIgnoreCase? start (Text.bare t.text)).map (· ++ ['\r']) := by
    intro start hstart
    rcases htext with heq | heq
    · rw [← heq]
      exact Or.inl rfl
    · refine Or.inr ?_
      rw [← Text.dropPrefixIgnoreCase?_append_return hstart, ← heq]
  have hbegin : (Text.dropPrefixIgnoreCase? commentBegin t.text).map Text.trim =
      (Text.dropPrefixIgnoreCase? commentBegin (Text.bare t.text)).map Text.trim := by
    rcases hdrop commentBegin (by decide) with heq | heq
    · rw [heq]
    · rw [heq, Option.map_map]
      congr 1
      funext label
      apply Text.trim_append_of_isBlank
      decide
  have hend : Text.startsWithIgnoreCase commentEnd t.text =
      Text.startsWithIgnoreCase commentEnd (Text.bare t.text) := by
    unfold Text.startsWithIgnoreCase
    rcases hdrop commentEnd (by decide) with heq | heq
    · rw [heq]
    · rw [heq, Option.isSome_map]
  unfold ofComment?
  rw [Token.text_bare, Token.start_bare, hstop, hend]
  revert hbegin
  cases Text.dropPrefixIgnoreCase? commentBegin t.text with
  | none =>
    cases Text.dropPrefixIgnoreCase? commentBegin (Text.bare t.text) with
    | none =>
      intro _
      dsimp only
      split <;> rfl
    | some label => intro hbegin; cases hbegin
  | some label =>
    cases Text.dropPrefixIgnoreCase? commentBegin (Text.bare t.text) with
    | none => intro hbegin; cases hbegin
    | some label' =>
      intro hbegin
      dsimp only
      rw [← Option.some.inj hbegin]
      rfl

end Bare

/-- **A token without carriage returns is the same marker**: in markers they stand at the end only. -/
theorem ofToken?_bare {s : Text} (h : Text.ReturnsEndLines s) (δ : Declaration → Declaration) {t : Token}
    (ht : t ∈ tokenize s) :
    ofToken? (t.bare s) = (ofToken? t).map (Event.moved (Text.bareOffset s) δ) := by
  have hstop := Token.stop_bare ht
  have htext : t.kind = .lineComment ∨ t.kind = .directive →
      t.text = Text.bare t.text ∨ t.text = Text.bare t.text ++ ['\r'] := by
    intro hkind
    obtain ⟨p, q, hs, -⟩ := exists_append_of_mem_tokenize ht
    refine (h.of_infix ⟨p, q, ?_⟩).eq_bare_or ((isTidy_of_mem_tokenize h ht).line hkind)
    rw [hs, List.append_assoc]
  unfold ofToken?
  rw [Token.kind_bare]
  split
  · next hdirective => exact ofDirective?_bare δ (htext (Or.inr hdirective)) hstop
  · next hcomment => exact ofComment?_bare δ (htext (Or.inl hcomment)) hstop
  · rfl

end Event

end Excerpt
