import Excerpt.Proofs.Source.Nesting
import Excerpt.Proofs.Text.Trimming
import Excerpt.Source.Locate
import Mathlib.Data.List.TakeWhile

/-!
# Excerpt — where an excerpt is found

The markers and declarations of a source file are its events, in the order of the text. The first event that
has the name decides; if it opens an excerpt, the closer of its kind that balances it ends the excerpt, and
no event of another sort has a say in this.

* **`IsBalanced`** — as many closers of a kind as openers, and nowhere more of them up to there.
* **`closing?_eq_some_iff`**, **`closing?_append`** — the closer that is found, and the number of openers
  that are still to be closed on the way to it.
* **`SourceFile.pairwise_events`**, **`SourceFile.mem_events_iff`** — the events of a source file.
* **`SourceFile.Answers`** — what is said of a name by the events.
* **`SourceFile.locate_first_match`** — and this is what is answered.
-/

namespace Excerpt

/-! ## Closers -/

/-- Whether the event opens an excerpt of the kind. -/
def Event.opens (kind : MarkerKind) : Event → Bool
  | opener k _ _ => k = kind
  | closer _ _ => false
  | declaration _ => false

/-- Whether the event closes an excerpt of the kind. -/
def Event.closes (kind : MarkerKind) : Event → Bool
  | opener _ _ _ => false
  | closer k _ => k = kind
  | declaration _ => false

/-- The closers and openers of the kind are equal in number, and nowhere are there more closers than
openers up to there. -/
structure IsBalanced (kind : MarkerKind) (events : List Event) : Prop where
  equal : events.countP (Event.closes kind) = events.countP (Event.opens kind)
  prefix_le : ∀ front, front <+: events →
    front.countP (Event.closes kind) ≤ front.countP (Event.opens kind)

namespace SourceFile

variable {kind : MarkerKind}

/-- What the search for a closer does with one event. -/
theorem closing?_cons (nested : Nat) (e : Event) (rest : List Event) :
    closing? kind nested (e :: rest) =
      if e.opens kind then closing? kind (nested + 1) rest
      else if e.closes kind then
        if nested = 0 then some e.offset else closing? kind (nested - 1) rest
      else closing? kind nested rest := by
  cases e with
  | opener k label marker =>
    by_cases hk : k = kind <;> simp [closing?, Event.opens, Event.closes, hk]
  | closer k start =>
    by_cases hk : k = kind
    · cases nested <;> simp [closing?, Event.opens, Event.closes, Event.offset, hk]
    · simp [closing?, Event.opens, Event.closes, hk]
  | declaration d => simp [closing?, Event.opens, Event.closes]

theorem not_closes_of_opens {e : Event} (h : e.opens kind = true) : ¬ e.closes kind = true := by
  cases e with
  | opener k label marker => exact Bool.false_ne_true
  | closer k start => cases h
  | declaration d => cases h

/-- **While no closer is found, the number of openers to be closed is that of the openers less that of the
closers so far**, and the difference is never negative. Induction along the events. -/
theorem closing?_append {nested : Nat} {seen : List Event} (h : closing? kind nested seen = none)
    (rest : List Event) :
    seen.countP (Event.closes kind) ≤ nested + seen.countP (Event.opens kind) ∧
      closing? kind nested (seen ++ rest) =
        closing? kind (nested + seen.countP (Event.opens kind) - seen.countP (Event.closes kind))
          rest := by
  induction seen generalizing nested with
  | nil => exact ⟨Nat.zero_le _, rfl⟩
  | cons e seen ih =>
    rw [closing?_cons] at h
    rw [List.cons_append, closing?_cons]
    by_cases hopens : e.opens kind = true
    · have hcloses := not_closes_of_opens hopens
      rw [if_pos hopens] at h ⊢
      obtain ⟨hle, heq⟩ := ih h
      rw [List.countP_cons_of_pos hopens, List.countP_cons_of_neg hcloses, heq]
      refine ⟨by omega, ?_⟩
      congr 1
      omega
    · rw [if_neg hopens] at h ⊢
      by_cases hcloses : e.closes kind = true
      · rw [if_pos hcloses] at h ⊢
        split at h
        · cases h
        · next hnested =>
          obtain ⟨hle, heq⟩ := ih h
          rw [if_neg hnested, List.countP_cons_of_neg hopens, List.countP_cons_of_pos hcloses, heq]
          refine ⟨by omega, ?_⟩
          congr 1
          omega
      · rw [if_neg hcloses] at h ⊢
        rw [List.countP_cons_of_neg hopens, List.countP_cons_of_neg hcloses]
        exact ih h

/-- Nothing is closed among events in which the closers are never more than the openers and those to be
closed. -/
theorem closing?_eq_none {nested : Nat} {seen : List Event}
    (h : ∀ front, front <+: seen →
      front.countP (Event.closes kind) ≤ nested + front.countP (Event.opens kind)) :
    closing? kind nested seen = none := by
  induction seen generalizing nested with
  | nil => rfl
  | cons e seen ih =>
    have hfront : ∀ front, front <+: seen →
        (e :: front).countP (Event.closes kind) ≤ nested + (e :: front).countP (Event.opens kind) :=
      fun front hfront => h (e :: front) (List.cons_prefix_cons.mpr ⟨rfl, hfront⟩)
    rw [closing?_cons]
    by_cases hopens : e.opens kind = true
    · have hcloses := not_closes_of_opens hopens
      rw [if_pos hopens]
      refine ih fun front hle => ?_
      have hcount := hfront front hle
      rw [List.countP_cons_of_pos hopens, List.countP_cons_of_neg hcloses] at hcount
      omega
    · rw [if_neg hopens]
      by_cases hcloses : e.closes kind = true
      · have hpos := hfront [] List.nil_prefix
        rw [List.countP_cons_of_neg hopens, List.countP_cons_of_pos hcloses, List.countP_nil,
          List.countP_nil] at hpos
        rw [if_pos hcloses, if_neg (by omega)]
        refine ih fun front hle => ?_
        have hcount := hfront front hle
        rw [List.countP_cons_of_neg hopens, List.countP_cons_of_pos hcloses] at hcount
        omega
      · rw [if_neg hcloses]
        refine ih fun front hle => ?_
        have hcount := hfront front hle
        rwa [List.countP_cons_of_neg hopens, List.countP_cons_of_neg hcloses] at hcount

/-- Where a closer is found, nothing was found before it, and none was left to be closed. -/
theorem exists_of_closing?_eq_some {nested stop : Nat} {events : List Event}
    (h : closing? kind nested events = some stop) :
    ∃ inner rest, events = inner ++ .closer kind stop :: rest ∧ closing? kind nested inner = none ∧
      inner.countP (Event.closes kind) = nested + inner.countP (Event.opens kind) := by
  induction events generalizing nested with
  | nil => cases h
  | cons e events ih =>
    rw [closing?_cons] at h
    by_cases hopens : e.opens kind = true
    · have hcloses := not_closes_of_opens hopens
      rw [if_pos hopens] at h
      obtain ⟨inner, rest, rfl, hnone, hcount⟩ := ih h
      refine ⟨e :: inner, rest, rfl, ?_, ?_⟩
      · rw [closing?_cons, if_pos hopens, hnone]
      · rw [List.countP_cons_of_pos hopens, List.countP_cons_of_neg hcloses]
        omega
    · rw [if_neg hopens] at h
      by_cases hcloses : e.closes kind = true
      · rw [if_pos hcloses] at h
        split at h
        · next hnested =>
          obtain rfl := Option.some.inj h
          refine ⟨[], events, ?_, rfl, by rw [hnested]; rfl⟩
          cases e with
          | closer k start =>
            obtain rfl : k = kind := by simpa [Event.closes] using hcloses
            rfl
          | opener k label marker => cases hcloses
          | declaration d => cases hcloses
        · next hnested =>
          obtain ⟨inner, rest, rfl, hnone, hcount⟩ := ih h
          refine ⟨e :: inner, rest, rfl, ?_, ?_⟩
          · rw [closing?_cons, if_neg hopens, if_pos hcloses, if_neg hnested, hnone]
          · rw [List.countP_cons_of_neg hopens, List.countP_cons_of_pos hcloses]
            omega
      · rw [if_neg hcloses] at h
        obtain ⟨inner, rest, rfl, hnone, hcount⟩ := ih h
        refine ⟨e :: inner, rest, rfl, ?_, ?_⟩
        · rw [closing?_cons, if_neg hopens, if_neg hcloses, hnone]
        · rwa [List.countP_cons_of_neg hopens, List.countP_cons_of_neg hcloses]

/-- Nothing is found in a start of events in which nothing is found. -/
theorem closing?_eq_none_of_start {nested : Nat} {front events : List Event}
    (h : closing? kind nested events = none) (hfront : front <+: events) :
    closing? kind nested front = none := by
  obtain ⟨back, rfl⟩ := hfront
  cases hclosing : closing? kind nested front with
  | none => rfl
  | some stop =>
    obtain ⟨inner, rest, rfl, hnone, hcount⟩ := exists_of_closing?_eq_some hclosing
    have happend := (closing?_append hnone (.closer kind stop :: (rest ++ back))).2
    rw [← hcount, Nat.sub_self, closing?_cons] at happend
    rw [List.append_assoc, List.cons_append, happend] at h
    simp [Event.opens, Event.closes] at h

theorem isBalanced_iff {inner : List Event} :
    IsBalanced kind inner ↔ closing? kind 0 inner = none ∧
      inner.countP (Event.closes kind) = inner.countP (Event.opens kind) := by
  constructor
  · intro h
    refine ⟨closing?_eq_none fun front hfront => ?_, h.equal⟩
    rw [Nat.zero_add]
    exact h.prefix_le front hfront
  · rintro ⟨hnone, hcount⟩
    refine ⟨hcount, fun front hfront => ?_⟩
    have hle := (closing?_append (closing?_eq_none_of_start hnone hfront) []).1
    rwa [Nat.zero_add] at hle

/-- **The closer that is found is the first one behind balanced events.** -/
theorem closing?_eq_some_iff {stop : Nat} {events : List Event} :
    closing? kind 0 events = some stop ↔
      ∃ inner rest, events = inner ++ .closer kind stop :: rest ∧ IsBalanced kind inner := by
  constructor
  · intro h
    obtain ⟨inner, rest, heq, hnone, hcount⟩ := exists_of_closing?_eq_some h
    rw [Nat.zero_add] at hcount
    exact ⟨inner, rest, heq, isBalanced_iff.mpr ⟨hnone, hcount⟩⟩
  · rintro ⟨inner, rest, rfl, hbalanced⟩
    obtain ⟨hnone, hcount⟩ := isBalanced_iff.mp hbalanced
    rw [(closing?_append hnone _).2, hcount, Nat.zero_add, Nat.sub_self, closing?_cons]
    simp [Event.opens, Event.closes, Event.offset]

end SourceFile

/-! ## Events -/

namespace Event

/-- A marker is no code, and stands where its token does. -/
theorem of_ofToken? {t : Token} {e : Event} (h : ofToken? t = some e) :
    t.kind.isTrivia = true ∧ e.offset = t.start := by
  unfold ofToken? at h
  split at h
  · next hkind =>
    refine ⟨by rw [hkind]; rfl, ?_⟩
    unfold ofDirective? at h
    dsimp only at h
    split at h
    · rw [← Option.some.inj h]
      rfl
    · split at h
      · rw [← Option.some.inj h]
        rfl
      · cases h
  · next hkind =>
    refine ⟨by rw [hkind]; rfl, ?_⟩
    unfold ofComment? at h
    split at h
    · rw [← Option.some.inj h]
      rfl
    · split at h
      · rw [← Option.some.inj h]
        rfl
      · cases h
  · cases h

end Event

namespace SourceFile

variable {text : Text} {file : SourceFile}

/-- **The events are the markers among the tokens, and the declarations.** -/
theorem mem_events_iff (file : SourceFile) (e : Event) :
    e ∈ file.events ↔
      (∃ t ∈ file.layout.tokens, Event.ofToken? t = some e) ∨
        ∃ d ∈ file.declarations, e = .declaration d := by
  unfold events
  rw [List.mem_mergeSort, List.mem_append, List.mem_filterMap, List.mem_map]
  simp only [Array.mem_toList_iff]
  refine or_congr Iff.rfl ?_
  exact exists_congr fun d => and_congr Iff.rfl eq_comm

/-- A declaration begins with a token of code. -/
theorem exists_token_of_mem_declarations (h : parse? text = some file) {d : Declaration}
    (hd : d ∈ file.declarations) :
    ∃ t ∈ file.layout.tokens, t.kind.isTrivia = false ∧ d.anchor = t.start := by
  have hsound := sound_of_parse? h
  obtain ⟨e, rfl, hfits⟩ := hsound.exists_entry hd
  obtain ⟨i, t, hi, -, ht⟩ := Layout.exists_codeToken? hsound.layout
    (Nat.lt_of_le_of_lt hfits.ordered hfits.lt)
  refine ⟨t, Array.mem_of_getElem? ht, ?_, ?_⟩
  · rw [layout_of_parse? h] at hi
    exact Layout.isTrivia_of_codeToken? hi
  · show file.layout.anchor e.declared.first = t.start
    unfold Layout.anchor
    rw [hi]

/-- An event stands where a token starts. -/
theorem exists_token_of_mem_events (h : parse? text = some file) {e : Event} (he : e ∈ file.events) :
    ∃ t ∈ tokenize text, e.offset = t.start := by
  have hlayout := layout_of_parse? h
  rcases (mem_events_iff file e).mp he with ⟨t, ht, hmarker⟩ | ⟨d, hd, rfl⟩
  · rw [hlayout] at ht
    exact ⟨t, List.mem_toArray.mp ht, (Event.of_ofToken? hmarker).2⟩
  · obtain ⟨t, ht, -, hanchor⟩ := exists_token_of_mem_declarations h hd
    rw [hlayout] at ht
    exact ⟨t, List.mem_toArray.mp ht, hanchor⟩

theorem pairwise_start_tokenize (s : Text) :
    (tokenize s).Pairwise fun t u => t.start < u.start := by
  refine List.Pairwise.imp_of_mem ?_ (pairwise_tokenize s)
  intro t u ht _ hle
  exact Nat.lt_of_lt_of_le (start_lt_stop_of_mem_tokensFrom ht) hle

/-- Two tokens at one offset are one token. -/
theorem eq_of_start_eq {s : Text} {t u : Token} (ht : t ∈ tokenize s) (hu : u ∈ tokenize s)
    (heq : t.start = u.start) : t = u := by
  have hpairwise := List.pairwise_iff_getElem.mp (pairwise_start_tokenize s)
  obtain ⟨i, hi, rfl⟩ := List.mem_iff_getElem.mp ht
  obtain ⟨j, hj, rfl⟩ := List.mem_iff_getElem.mp hu
  rcases Nat.lt_trichotomy i j with hlt | rfl | hgt
  · exact absurd heq (Nat.ne_of_lt (hpairwise i j hi hj hlt))
  · rfl
  · exact absurd heq.symm (Nat.ne_of_lt (hpairwise j i hj hi hgt))

/-- No two of the markers and declarations stand at one offset: markers are no code. -/
theorem pairwise_offset_ne (h : parse? text = some file) :
    (file.layout.tokens.toList.filterMap Event.ofToken? ++
      file.declarations.toList.map Event.declaration).Pairwise fun e f => e.offset ≠ f.offset := by
  have hlayout := layout_of_parse? h
  refine List.pairwise_append.mpr ⟨?_, List.pairwise_map.mpr (List.pairwise_iff_getElem.mpr ?_), ?_⟩
  · rw [hlayout]
    refine List.Pairwise.filterMap _ ?_ (pairwise_start_tokenize text)
    intro t u hlt e he f hf
    rw [(Event.of_ofToken? he).2, (Event.of_ofToken? hf).2]
    exact Nat.ne_of_lt hlt
  · intro i j hi hj hij
    refine Nat.ne_of_lt (anchor_lt_anchor h hij ?_ ?_)
    · rw [← Array.getElem?_toList, List.getElem?_eq_getElem hi]
    · rw [← Array.getElem?_toList, List.getElem?_eq_getElem hj]
  · intro e he f hf
    obtain ⟨t, ht, hmarker⟩ := List.mem_filterMap.mp he
    obtain ⟨d, hd, rfl⟩ := List.mem_map.mp hf
    obtain ⟨u, hu, hcode, hanchor⟩ := exists_token_of_mem_declarations h (Array.mem_toList_iff.mp hd)
    obtain ⟨htrivia, hoffset⟩ := Event.of_ofToken? hmarker
    rw [hoffset]
    show t.start ≠ d.anchor
    rw [hanchor]
    intro heq
    rw [hlayout] at ht hu
    obtain rfl : t = u := eq_of_start_eq (List.mem_toArray.mp (Array.mem_toList_iff.mp ht))
      (List.mem_toArray.mp hu) heq
    rw [hcode] at htrivia
    exact Bool.noConfusion htrivia

/-- **The events stand one behind the other**, no two of them at one offset. -/
theorem pairwise_events (h : parse? text = some file) :
    file.events.Pairwise fun e f => e.offset < f.offset := by
  have hne : file.events.Pairwise fun e f => e.offset ≠ f.offset :=
    ((List.mergeSort_perm _ _).pairwise_iff fun hne => hne.symm).mpr (pairwise_offset_ne h)
  have hsorted : file.events.Pairwise fun e f => decide (e.offset ≤ f.offset) = true := by
    refine List.pairwise_mergeSort ?_ ?_ _
    · intro a b c hab hbc
      simp only [decide_eq_true_eq] at *
      omega
    · intro a b
      simp only [Bool.or_eq_true, decide_eq_true_eq]
      omega
  refine (hsorted.and hne).imp ?_
  rintro e f ⟨hle, hne⟩
  exact Nat.lt_of_le_of_ne (of_decide_eq_true hle) hne

/-! ## Answers -/

/-- The event has the name: its label begins with the name, but for the case of ASCII letters, or the name
addresses the declaration, which has a body if only that is asked for. -/
def Begins (file : SourceFile) (name : Text) (bodyOnly : Bool) : Event → Prop
  | .opener _ label _ => ∃ start rest, label = start ++ rest ∧ Text.lower start = Text.lower name
  | .closer _ _ => False
  | .declaration d => file.matchesPath d name = true ∧ (bodyOnly = true → ∃ span, d.body = some span)

/-- The event is the first one that has the name, between the given ones. -/
structure IsFirst (file : SourceFile) (name : Text) (bodyOnly : Bool) (before : List Event) (e : Event)
    (behind : List Event) : Prop where
  events : file.events = before ++ e :: behind
  begins : file.Begins name bodyOnly e
  before : ∀ b ∈ before, ¬ file.Begins name bodyOnly b

/-- What the events say of a name. -/
inductive Answers (file : SourceFile) (name : Text) (bodyOnly : Bool) :
    Except Unlocated Located → Prop where
  | absent (h : ∀ e ∈ file.events, ¬ file.Begins name bodyOnly e) :
      Answers file name bodyOnly (.error .notFound)
  | full {before behind : List Event} {d : Declaration}
      (h : file.IsFirst name bodyOnly before (.declaration d) behind) (hfull : bodyOnly = false) :
      Answers file name bodyOnly (.ok ⟨d.full, d.anchor⟩)
  | body {before behind : List Event} {d : Declaration} {span : Span}
      (h : file.IsFirst name bodyOnly before (.declaration d) behind) (hbody : bodyOnly = true)
      (hspan : d.body = some span) : Answers file name bodyOnly (.ok ⟨span, file.firstCodeOffset span⟩)
  | closed {before inner behind : List Event} {kind : MarkerKind} {label : Text} {marker : Span}
      {stop : Nat}
      (h : file.IsFirst name bodyOnly before (.opener kind label marker)
        (inner ++ .closer kind stop :: behind)) (hinner : IsBalanced kind inner) :
      Answers file name bodyOnly (.ok ⟨⟨marker.stop, stop⟩, marker.start⟩)
  | unclosed {before behind : List Event} {kind : MarkerKind} {label : Text} {marker : Span}
      (h : file.IsFirst name bodyOnly before (.opener kind label marker) behind)
      (hnone : ∀ inner stop rest, behind = inner ++ .closer kind stop :: rest →
        ¬ IsBalanced kind inner) : Answers file name bodyOnly (.error .unclosed)

theorem dropPrefixIgnoreCase?_isSome_iff (start s : Text) :
    Text.startsWithIgnoreCase start s = true ↔
      ∃ front rest, s = front ++ rest ∧ Text.lower front = Text.lower start := by
  rw [Text.startsWithIgnoreCase, Option.isSome_iff_exists, exists_comm]
  exact exists_congr fun _ => Text.dropPrefixIgnoreCase?_eq_some_iff

theorem isNamed_iff (name : Text) (bodyOnly : Bool) (e : Event) :
    file.isNamed name bodyOnly e = true ↔ file.Begins name bodyOnly e := by
  cases e with
  | opener kind label marker => exact dropPrefixIgnoreCase?_isSome_iff name label
  | closer kind start => simp [isNamed, Begins]
  | declaration d =>
    rw [isNamed, Bool.and_eq_true, Begins]
    refine and_congr Iff.rfl ?_
    cases bodyOnly <;> simp [Option.isSome_iff_exists]

/-- The events from the first one on that has the name. -/
theorem dropWhile_events_eq {name : Text} {bodyOnly : Bool} {before behind : List Event} {e : Event}
    (h : file.IsFirst name bodyOnly before e behind) :
    file.events.dropWhile (! file.isNamed name bodyOnly ·) = e :: behind := by
  rw [h.events, List.dropWhile_append_of_pos]
  · rw [List.dropWhile_cons_of_neg]
    simpa using (isNamed_iff name bodyOnly e).mpr h.begins
  · intro b hb
    have hnot := h.before b hb
    rw [← isNamed_iff] at hnot
    simpa using hnot

theorem isFirst_of_dropWhile_events_eq {name : Text} {bodyOnly : Bool} {behind : List Event}
    {e : Event} (h : file.events.dropWhile (! file.isNamed name bodyOnly ·) = e :: behind) :
    ∃ before, file.IsFirst name bodyOnly before e behind := by
  refine ⟨file.events.takeWhile (! file.isNamed name bodyOnly ·), ?_, ?_, ?_⟩
  · rw [← h, List.takeWhile_append_dropWhile]
  · have hhead := List.head_dropWhile_not (! file.isNamed name bodyOnly ·) (l := file.events)
      (by rw [h]; simp)
    rw [← isNamed_iff]
    simpa [h] using hhead
  · intro b hb
    have htaken := List.mem_takeWhile_imp hb
    rw [← isNamed_iff]
    simpa using htaken

theorem placeOf_true {d : Declaration} {span : Span} (hspan : d.body = some span) :
    file.placeOf true d = ⟨span, file.firstCodeOffset span⟩ := by
  unfold placeOf
  split
  · next hbody =>
    obtain rfl := Option.some.inj (hbody.symm.trans hspan)
    rfl
  · next hnone => exact absurd hspan (hnone span rfl)

/-- **What is answered is said by the events.** -/
theorem answers_locate (file : SourceFile) (name : Text) (bodyOnly : Bool) :
    file.Answers name bodyOnly (file.locate name bodyOnly) := by
  unfold locate
  split
  · next kind label marker rest hdrop =>
    obtain ⟨before, hfirst⟩ := isFirst_of_dropWhile_events_eq hdrop
    split
    · next stop hstop =>
      obtain ⟨inner, behind, rfl, hinner⟩ := closing?_eq_some_iff.mp hstop
      exact .closed hfirst hinner
    · next hnone =>
      refine .unclosed hfirst fun inner stop behind heq hinner => ?_
      rw [closing?_eq_some_iff.mpr ⟨inner, behind, heq, hinner⟩] at hnone
      cases hnone
  · next d rest hdrop =>
    obtain ⟨before, hfirst⟩ := isFirst_of_dropWhile_events_eq hdrop
    cases bodyOnly with
    | false => exact .full hfirst rfl
    | true =>
      obtain ⟨span, hspan⟩ := hfirst.begins.2 rfl
      rw [placeOf_true hspan]
      exact .body hfirst rfl hspan
  · next hopener hdeclaration =>
    refine .absent fun e he hbegins => ?_
    cases hdrop : file.events.dropWhile (! file.isNamed name bodyOnly ·) with
    | nil =>
      have hnot := List.dropWhile_eq_nil_iff.mp hdrop e he
      rw [(isNamed_iff name bodyOnly e).mpr hbegins] at hnot
      exact absurd hnot (by simp)
    | cons first rest =>
      obtain ⟨before, hfirst⟩ := isFirst_of_dropWhile_events_eq hdrop
      cases first with
      | opener kind label marker => exact hopener kind label marker rest hdrop
      | closer kind start => exact hfirst.begins
      | declaration d => exact hdeclaration d rest hdrop

/-- **What the events say is answered.** -/
theorem locate_eq_of_answers {name : Text} {bodyOnly : Bool} {answer : Except Unlocated Located}
    (h : file.Answers name bodyOnly answer) : file.locate name bodyOnly = answer := by
  unfold locate
  cases h with
  | absent h =>
    have hnil : file.events.dropWhile (! file.isNamed name bodyOnly ·) = [] := by
      refine List.dropWhile_eq_nil_iff.mpr fun e he => ?_
      have hnot := h e he
      rw [← isNamed_iff] at hnot
      simpa using hnot
    rw [hnil]
  | full h hfull =>
    rw [dropWhile_events_eq h, hfull]
    rfl
  | body h hbody hspan =>
    rw [dropWhile_events_eq h, hbody]
    dsimp only
    rw [placeOf_true hspan]
  | closed h hinner =>
    rw [dropWhile_events_eq h]
    dsimp only
    rw [closing?_eq_some_iff.mpr ⟨_, _, rfl, hinner⟩]
  | unclosed h hnone =>
    rw [dropWhile_events_eq h]
    dsimp only
    split
    · next stop hstop =>
      obtain ⟨inner, rest, heq, hinner⟩ := closing?_eq_some_iff.mp hstop
      exact absurd hinner (hnone inner stop rest heq)
    · rfl

/-- **Which excerpt a name has.** The events of a source file are its markers and its declarations, in the
order of the text. The first one that has the name decides, as `Answers` says, and until the closer of a
marker is found, the number of openers to be closed before it is the difference of those of its kind so
far. -/
theorem locate_first_match (h : parse? text = some file) (name : Text) (bodyOnly : Bool) :
    (file.events.Pairwise fun e f => e.offset < f.offset) ∧
      (∀ e, e ∈ file.events ↔ (∃ t ∈ file.layout.tokens, Event.ofToken? t = some e) ∨
        ∃ d ∈ file.declarations, e = .declaration d) ∧
      (∀ answer, file.locate name bodyOnly = answer ↔ file.Answers name bodyOnly answer) ∧
      ∀ (kind : MarkerKind) (seen rest : List Event), closing? kind 0 seen = none →
        seen.countP (Event.closes kind) ≤ seen.countP (Event.opens kind) ∧
          closing? kind 0 (seen ++ rest) = closing? kind
            (seen.countP (Event.opens kind) - seen.countP (Event.closes kind)) rest := by
  refine ⟨pairwise_events h, mem_events_iff file, ?_, ?_⟩
  · intro answer
    constructor
    · rintro rfl
      exact answers_locate file name bodyOnly
    · exact locate_eq_of_answers
  · intro kind seen rest hnone
    have happend := closing?_append hnone rest
    rwa [Nat.zero_add] at happend

/-- A region with a region in it, across which a comment excerpt ends, before a type of its name. -/
def nestedRegions : Text :=
  "#region A\n// begin-snippet: A\n#region B\n#endregion\n// end-snippet\n#endregion\nclass A;".toList

/-- Of its events, the declaration is the last one, and the first one opens the region that is found. -/
theorem closing?_nestedRegions :
    (parse? nestedRegions).any (fun file =>
      let events := file.layout.tokens.toList.filterMap Event.ofToken? ++
        file.declarations.toList.map Event.declaration
      decide (events.Pairwise fun e f => e.offset ≤ f.offset) &&
        match events with
        | .opener kind label marker :: rest =>
          Text.startsWithIgnoreCase "a".toList label && decide (marker = ⟨0, 9⟩) &&
            decide (closing? kind 0 rest = some 66)
        | _ => false) = true := by
  decide +kernel

/-- The outer region is found: from behind its marker to the closer that balances it. -/
theorem locate_first_match_nestedRegions :
    ∃ file, parse? nestedRegions = some file ∧
      file.locate "a".toList false = .ok ⟨⟨9, 66⟩, 0⟩ ∧
      file.Answers "a".toList false (.ok ⟨⟨9, 66⟩, 0⟩) := by
  obtain ⟨file, hfile, hevents⟩ := (Option.any_eq_true _ _).mp closing?_nestedRegions
  dsimp only at hevents
  rw [Bool.and_eq_true, decide_eq_true_iff] at hevents
  obtain ⟨hsorted, hfirst⟩ := hevents
  have heq : file.events = file.layout.tokens.toList.filterMap Event.ofToken? ++
      file.declarations.toList.map Event.declaration :=
    List.mergeSort_of_pairwise (hsorted.imp fun hle => decide_eq_true hle)
  have hlocate : file.locate "a".toList false = .ok ⟨⟨9, 66⟩, 0⟩ := by
    unfold locate
    rw [heq]
    split at hfirst
    · next kind label marker rest hcons =>
      simp only [Bool.and_eq_true, decide_eq_true_eq] at hfirst
      obtain ⟨⟨hname, rfl⟩, hclosing⟩ := hfirst
      have hnamed : file.isNamed "a".toList false (.opener kind label ⟨0, 9⟩) = true := hname
      rw [hcons, List.dropWhile_cons_of_neg (by rw [hnamed]; decide)]
      simp only [hclosing]
    · cases hfirst
  exact ⟨file, hfile, hlocate, ((locate_first_match hfile _ _).2.2.1 _).mp hlocate⟩

end SourceFile

end Excerpt
