import Excerpt.Proofs.Engine.View
import Excerpt.Proofs.Source.LineRange
import Excerpt.Proofs.Source.LineTokens
import Excerpt.Proofs.Source.Locate
import Excerpt.Proofs.Source.OpaqueLexemes
import Excerpt.Proofs.Text.Indentation

/-!
# Excerpt — an excerpt that was written is extracted as it was

A source file is written that has the lines of an excerpt between two markers, all of them indented. The
markers are the first and the last token of the file, and no token between them is a marker of their kind,
so the excerpt is found between them; taking off the indentation gives its text back.

* **`MarkerKind.written`**, **`MarkerKind.CanHold`** — the file, and which excerpts can be put there.
* **`MarkerKind.tokenize_written`** — the tokens of the file.
* **`SourceFile.locate_written`** — where the excerpt is found, whatever its lines declare.
* **`SourceExtractor.extract_written`** — it is extracted as it was, with its lines counted from the marker.
-/

namespace Excerpt

namespace MarkerKind

/-- The kind of the tokens that are markers of the kind. -/
def tokenKind : MarkerKind → TokenKind
  | region => .directive
  | comment => .lineComment

/-- The marker that opens an excerpt of the name. -/
def opening (name : Text) : MarkerKind → Text
  | region => "#region ".toList ++ name
  | comment => Event.commentBegin ++ name

/-- The marker that closes an excerpt. -/
def closing : MarkerKind → Text
  | region => "#endregion".toList
  | comment => Event.commentEnd

/-- A source file of the lines of an excerpt and its markers, each behind `k` spaces. -/
def written (kind : MarkerKind) (k : Nat) (name content : Text) : Text :=
  ['\n'].intercalate
    ((kind.opening name :: content.splitOn '\n' ++ [kind.closing]).map (Fragment.indented k))

/-- The excerpts that can be written between markers of the kind: the name is what is read from the
marker, the lines are what is read from indented lines, and no token goes across the end of a line or is
a marker of the kind. -/
structure CanHold (kind : MarkerKind) (name content : Text) : Prop where
  nameLine : '\n' ∉ name
  nameTrimmed : Text.trim name = name
  firstLine : ∀ l ∈ (content.splitOn '\n').head?, Text.isBlank l = false
  lastLine : ∀ l ∈ (content.splitOn '\n').getLast?, Text.isBlank l = false
  lineEnds : ∀ l ∈ content.splitOn '\n', l.getLast? ≠ some '\r'
  noQuote : '"' ∉ content
  noApostrophe : '\'' ∉ content
  noHash : '#' ∉ content
  noBlockComment : ¬ "/*".toList <:+: content
  noLineComment : kind = .comment → ∀ l ∈ content.splitOn '\n', ¬ "//".toList <:+: l

/-! ## The parts of the file -/

/-- What stands up to the end of the opening marker. -/
def front (kind : MarkerKind) (k : Nat) (name : Text) : Text :=
  Fragment.indented k (kind.opening name)

/-- What stands between the markers. -/
def inside (k : Nat) (content : Text) : Text :=
  '\n' :: (((content.splitOn '\n').map (Fragment.indented k)).flatMap (· ++ ['\n']) ++
    List.replicate k ' ')

variable {kind : MarkerKind} {name content : Text}

theorem written_eq (kind : MarkerKind) (k : Nat) (name content : Text) :
    kind.written k name content = kind.front k name ++ (inside k content ++ kind.closing) := by
  rw [written, List.map_append, List.map_singleton, Text.intercalate_concat, List.map_cons,
    List.flatMap_cons]
  simp [front, inside, Fragment.indented]

theorem CanHold.isPlainLine (h : kind.CanHold name content) {l : Text}
    (hl : l ∈ content.splitOn '\n') : IsPlainLine l := by
  have hinside := Text.infix_of_mem_splitOn hl
  constructor
  · exact Text.not_mem_of_mem_splitOn hl
  · exact fun hmem => h.noQuote (hinside.subset hmem)
  · exact fun hmem => h.noApostrophe (hinside.subset hmem)
  · exact fun hmem => h.noHash (hinside.subset hmem)
  · exact fun hpair => h.noBlockComment (hpair.trans hinside)

theorem width_replicate_space (k : Nat) : Text.width (List.replicate k ' ') = k := by
  induction k with
  | zero => rfl
  | succ k ih =>
    rw [List.replicate_succ, Text.width_cons, ih]
    exact Nat.add_comm 1 k

theorem width_front (kind : MarkerKind) (k : Nat) (name : Text) :
    Text.width (kind.front k name) = k + Text.width (kind.opening name) := by
  rw [front, Fragment.indented, Text.width_append, width_replicate_space]

/-! ## Tokens -/

/-- The line is read as one token of the kind of markers. -/
inductive IsMarkerLine : MarkerKind → Text → Prop where
  | region {d : Char} {l : Text} (hd : d.isAlpha = true) (hl : '\n' ∉ d :: l) :
      IsMarkerLine .region ('#' :: d :: l)
  | comment {l : Text} (hl : '\n' ∉ l) : IsMarkerLine .comment ('/' :: '/' :: l)

theorem IsMarkerLine.noLineFeed {marker : Text} (h : IsMarkerLine kind marker) : '\n' ∉ marker := by
  cases h with
  | region hd hl => simpa using hl
  | comment hl => simpa using hl

theorem isMarkerLine_opening (kind : MarkerKind) (hname : '\n' ∉ name) :
    IsMarkerLine kind (kind.opening name) := by
  have hjoined : ∀ s : Text, '\n' ∉ s → '\n' ∉ s ++ name := by
    intro s hs
    rw [List.mem_append, not_or]
    exact ⟨hs, hname⟩
  cases kind with
  | region => exact .region (by decide) (hjoined "region ".toList (by decide))
  | comment => exact .comment (hjoined " begin-snippet: ".toList (by decide))

theorem isMarkerLine_closing (kind : MarkerKind) : IsMarkerLine kind kind.closing := by
  cases kind with
  | region => exact .region (by decide) (by decide)
  | comment => exact .comment (by decide)

theorem isRead_markerLine {marker z : Text} (h : IsMarkerLine kind marker) (hz : z = [] ∨ z.head? = some '\n') :
    Lexeme.IsRead kind.tokenKind marker z := by
  cases h with
  | region hd hl =>
    have hblanks : ∀ b ∈ ([] : Text), isIndent b = true := by simp
    exact Lexeme.isRead_directive hblanks hd (fun hmem => hl (List.mem_cons_of_mem _ hmem)) hz
  | comment hl => exact Lexeme.isRead_lineComment hl hz

/-- **A marker is one token.** -/
theorem tokensFrom_markerLine {marker : Text} (h : IsMarkerLine kind marker) (offset : Nat) {z : Text}
    (hz : z = [] ∨ z.head? = some '\n') :
    tokensFrom offset (marker ++ z) =
      ⟨kind.tokenKind, marker, offset⟩ :: tokensFrom (offset + Text.width marker) z :=
  tokensFrom_of_isRead (isRead_markerLine h hz) offset

/-- **The markers are the first and the last token of the file**, and none between them is of the kind
that they are of. -/
theorem tokenize_written (h : kind.CanHold name content) (k : Nat) :
    ∃ inner, tokenize (kind.written k name content) =
        ⟨kind.tokenKind, kind.opening name, k⟩ :: (inner ++ [⟨kind.tokenKind, kind.closing,
          Text.width (kind.front k name) + Text.width (inside k content)⟩]) ∧
      ∀ t ∈ inner, t.kind ≠ kind.tokenKind := by
  have hplain : ∀ l ∈ (content.splitOn '\n').map (Fragment.indented k), IsPlainLine l := by
    intro l hl
    obtain ⟨m, hm, rfl⟩ := List.mem_map.mp hl
    exact (h.isPlainLine hm).indented k
  obtain ⟨inner, hinner, hkinds⟩ := tokensFrom_lines hplain
    (Text.width (kind.front k name) + '\n'.utf8Size) (List.replicate k ' ' ++ kind.closing)
  refine ⟨inner, ?_, ?_⟩
  · have hclosing := tokensFrom_markerLine (isMarkerLine_closing kind)
      (Text.width (kind.front k name) + Text.width (inside k content)) (Or.inl rfl)
    rw [List.append_nil, tokensFrom.eq_1] at hclosing
    have hwidth : Text.width (inside k content) = '\n'.utf8Size + (Text.width
        (((content.splitOn '\n').map (Fragment.indented k)).flatMap (· ++ ['\n'])) + k) := by
      rw [inside, Text.width_cons, Text.width_append, width_replicate_space]
    rw [tokenize, written_eq, front, Fragment.indented, List.append_assoc, tokensFrom_replicate,
      tokensFrom_markerLine (isMarkerLine_opening kind h.nameLine) _ (Or.inr rfl), Nat.zero_add,
      inside, List.cons_append, tokensFrom_cons_of_skipped (by decide), ← width_front,
      List.append_assoc, hinner, tokensFrom_replicate, Nat.add_assoc, Nat.add_assoc, ← hwidth, hclosing]
    rfl
  · intro t ht
    obtain ⟨hdirective, hcomment⟩ := hkinds t ht
    cases kind with
    | region => exact hdirective
    | comment =>
      intro hkind
      obtain ⟨l, hl, hpair⟩ := hcomment hkind
      obtain ⟨m, hm, rfl⟩ := List.mem_map.mp hl
      exact h.noLineComment rfl m hm (IsPlainLine.infix_of_infix_replicate_append (by decide) hpair)

/-! ## Markers among the tokens -/

theorem ofToken?_opening (kind : MarkerKind) (name : Text) (offset : Nat) :
    Event.ofToken? ⟨kind.tokenKind, kind.opening name, offset⟩ =
      some (.opener kind (Text.trim name) ⟨offset, offset + Text.width (kind.opening name)⟩) := by
  cases kind <;> rfl

theorem ofToken?_closing (kind : MarkerKind) (offset : Nat) :
    Event.ofToken? ⟨kind.tokenKind, kind.closing, offset⟩ = some (.closer kind offset) := by
  cases kind <;> rfl

/-- A marker is a token of the kind that markers of its kind are of. -/
theorem kind_of_ofToken? {t : Token} {e : Event} (h : Event.ofToken? t = some e)
    (he : e.opens kind = true ∨ e.closes kind = true) : t.kind = kind.tokenKind := by
  unfold Event.ofToken? at h
  split at h
  · next hkind =>
    unfold Event.ofDirective? at h
    dsimp only at h
    rw [hkind]
    split at h
    · obtain rfl := Option.some.inj h
      obtain rfl : MarkerKind.region = kind := by simpa [Event.opens, Event.closes] using he
      rfl
    · split at h
      · obtain rfl := Option.some.inj h
        obtain rfl : MarkerKind.region = kind := by simpa [Event.opens, Event.closes] using he
        rfl
      · cases h
  · next hkind =>
    unfold Event.ofComment? at h
    rw [hkind]
    split at h
    · obtain rfl := Option.some.inj h
      obtain rfl : MarkerKind.comment = kind := by simpa [Event.opens, Event.closes] using he
      rfl
    · split at h
      · obtain rfl := Option.some.inj h
        obtain rfl : MarkerKind.comment = kind := by simpa [Event.opens, Event.closes] using he
        rfl
      · cases h
  · cases h

end MarkerKind

namespace SourceFile

variable {kind : MarkerKind} {k : Nat} {name content : Text} {file : SourceFile}

/-! ## Where the excerpt is found -/

/-- Events among which none opens or closes an excerpt of the kind are balanced. -/
theorem isBalanced_of_forall {events : List Event}
    (h : ∀ e ∈ events, e.opens kind ≠ true ∧ e.closes kind ≠ true) : IsBalanced kind events := by
  have hcount : ∀ front : List Event, front <+: events →
      front.countP (Event.closes kind) = 0 ∧ front.countP (Event.opens kind) = 0 := by
    intro front hfront
    rw [List.countP_eq_zero, List.countP_eq_zero]
    exact ⟨fun e he => (h e (hfront.subset he)).2, fun e he => (h e (hfront.subset he)).1⟩
  constructor
  · obtain ⟨hcloses, hopens⟩ := hcount events (List.prefix_refl events)
    rw [hcloses, hopens]
  · intro front hfront
    obtain ⟨hcloses, hopens⟩ := hcount front hfront
    rw [hcloses]
    exact Nat.zero_le _

/-- The first marker of the file as an event. -/
def writtenOpener (kind : MarkerKind) (k : Nat) (name : Text) : Event :=
  .opener kind name ⟨k, Text.width (kind.front k name)⟩

/-- The last marker of the file as an event. -/
def writtenCloser (kind : MarkerKind) (k : Nat) (name content : Text) : Event :=
  .closer kind (Text.width (kind.front k name) + Text.width (MarkerKind.inside k content))

theorem mem_tokens_iff_of_parse? {text : Text} (hfile : parse? text = some file) (t : Token) :
    t ∈ file.layout.tokens ↔ t ∈ tokenize text := by
  rw [layout_of_parse? hfile]
  exact List.mem_toArray

section Written

variable (h : kind.CanHold name content) (hfile : parse? (kind.written k name content) = some file)

include h

theorem ofToken?_writtenOpener : Event.ofToken? ⟨kind.tokenKind, kind.opening name, k⟩ =
    some (writtenOpener kind k name) := by
  rw [MarkerKind.ofToken?_opening, h.nameTrimmed, writtenOpener, MarkerKind.width_front]

include hfile

/-- The two markers are events of the file. -/
theorem written_mem_events :
    writtenOpener kind k name ∈ file.events ∧ writtenCloser kind k name content ∈ file.events := by
  obtain ⟨inner, htokens, -⟩ := MarkerKind.tokenize_written h k
  constructor
  · refine (mem_events_iff file _).mpr (Or.inl ⟨_, ?_, ofToken?_writtenOpener h⟩)
    rw [mem_tokens_iff_of_parse? hfile, htokens]
    exact List.mem_cons_self
  · refine (mem_events_iff file _).mpr (Or.inl ⟨_, ?_, MarkerKind.ofToken?_closing kind _⟩)
    rw [mem_tokens_iff_of_parse? hfile, htokens]
    exact List.mem_cons_of_mem _ (List.mem_append_right _ List.mem_cons_self)

/-- They are its only markers of their kind. -/
theorem eq_written_of_mem_events {e : Event} (he : e ∈ file.events)
    (hkind : e.opens kind = true ∨ e.closes kind = true) :
    e = writtenOpener kind k name ∨ e = writtenCloser kind k name content := by
  obtain ⟨inner, htokens, hinner⟩ := MarkerKind.tokenize_written h k
  rcases (mem_events_iff file e).mp he with ⟨t, ht, hmarker⟩ | ⟨d, -, rfl⟩
  · have htokenKind := MarkerKind.kind_of_ofToken? hmarker hkind
    rw [mem_tokens_iff_of_parse? hfile, htokens] at ht
    rcases List.mem_cons.mp ht with rfl | ht
    · exact Or.inl (Option.some.inj (hmarker.symm.trans (ofToken?_writtenOpener h)))
    · rcases List.mem_append.mp ht with ht | ht
      · exact absurd htokenKind (hinner t ht)
      · obtain rfl := List.mem_singleton.mp ht
        exact Or.inr (Option.some.inj (hmarker.symm.trans (MarkerKind.ofToken?_closing kind _)))
  · simp [Event.opens, Event.closes] at hkind

/-- No event stands before the first marker. -/
theorem le_offset_of_mem_events {e : Event} (he : e ∈ file.events) : k ≤ e.offset := by
  obtain ⟨inner, htokens, -⟩ := MarkerKind.tokenize_written h k
  obtain ⟨t, ht, hoffset⟩ := exists_token_of_mem_events hfile he
  have hpairwise := pairwise_start_tokenize (kind.written k name content)
  rw [htokens] at ht hpairwise
  rw [hoffset]
  rcases List.mem_cons.mp ht with rfl | hbehind
  · exact Nat.le_refl _
  · exact Nat.le_of_lt ((List.pairwise_cons.mp hpairwise).1 t hbehind)

/-- **The events of the file**: the first marker, events that leave it open, the last marker, and whatever
stands behind it. -/
theorem exists_events_written : ∃ between behind,
    file.events = writtenOpener kind k name :: (between ++ writtenCloser kind k name content :: behind) ∧
      IsBalanced kind between := by
  obtain ⟨hfirst, hlast⟩ := written_mem_events h hfile
  have hsorted := pairwise_events hfile
  obtain ⟨before, rest, hevents⟩ := List.append_of_mem hfirst
  rw [hevents, List.pairwise_append] at hsorted
  obtain ⟨-, hrest, hbefore⟩ := hsorted
  obtain ⟨hless, hsorted⟩ := List.pairwise_cons.mp hrest
  obtain rfl : before = [] := by
    refine List.eq_nil_iff_forall_not_mem.mpr fun e he => ?_
    have hlt : e.offset < k := hbefore e he _ List.mem_cons_self
    have hmem : e ∈ file.events := by
      rw [hevents]
      exact List.mem_append_left _ he
    exact Nat.not_lt_of_le (le_offset_of_mem_events h hfile hmem) hlt
  rw [hevents, List.nil_append] at hlast
  rcases List.mem_cons.mp hlast with hcase | hmem
  · cases hcase
  obtain ⟨between, behind, rfl⟩ := List.append_of_mem hmem
  refine ⟨between, behind, hevents, isBalanced_of_forall fun e he => not_or.mp fun hkind => ?_⟩
  -- a marker of the kind would be one of the two, and stand at its offset
  have hafter : k < e.offset := hless e (List.mem_append_left _ he)
  have hbeforeCloser : e.offset < (writtenCloser kind k name content).offset :=
    (List.pairwise_append.mp hsorted).2.2 e he _ List.mem_cons_self
  have hevent : e ∈ file.events := by
    rw [hevents]
    exact List.mem_cons_of_mem _ (List.mem_append_left _ he)
  rcases eq_written_of_mem_events h hfile hevent hkind with rfl | rfl
  · exact Nat.lt_irrefl k hafter
  · exact Nat.lt_irrefl _ hbeforeCloser

/-- **The excerpt is found between its markers**, whatever its lines declare and whether a body is asked
for. -/
theorem locate_written (bodyOnly : Bool) :
    file.locate name bodyOnly = .ok ⟨⟨Text.width (kind.front k name),
      Text.width (kind.front k name) + Text.width (MarkerKind.inside k content)⟩, k⟩ := by
  obtain ⟨between, behind, hevents, hbetween⟩ := exists_events_written h hfile
  have hfirst : file.IsFirst name bodyOnly [] (writtenOpener kind k name)
      (between ++ writtenCloser kind k name content :: behind) :=
    ⟨hevents, ⟨name, [], (List.append_nil name).symm, rfl⟩, by simp⟩
  apply locate_eq_of_answers
  exact .closed hfirst hbetween

end Written

/-! ## Its lines and its text -/

theorem count_flatMap_line {ls : List Text} (h : ∀ l ∈ ls, '\n' ∉ l) :
    (ls.flatMap (· ++ ['\n'])).count '\n' = ls.length := by
  induction ls with
  | nil => rfl
  | cons l ls ih =>
    obtain ⟨hl, hls⟩ := List.forall_mem_cons.mp h
    rw [List.flatMap_cons, List.count_append, List.count_append, List.count_eq_zero_of_not_mem hl,
      ih hls, List.length_cons]
    exact Nat.add_comm 1 ls.length

theorem notMem_indented {l : Text} (hl : '\n' ∉ l) (k : Nat) : '\n' ∉ Fragment.indented k l := by
  simp [Fragment.indented, hl]

/-- The first character of the excerpt that is not white space stands on the line behind the marker. -/
theorem count_takeWhile_inside (h : kind.CanHold name content) (k : Nat) :
    ((MarkerKind.inside k content).takeWhile isWhiteSpace).count '\n' = 1 := by
  obtain ⟨first, rest, hlines⟩ := List.exists_cons_of_ne_nil (List.splitOn_ne_nil '\n' content)
  obtain ⟨front, d, tail, hfirst, hd, -⟩ :=
    Text.exists_eq_append_of_not_isBlank (h.firstLine first (by rw [hlines]; rfl))
  have hfeed : '\n' ∉ Fragment.indented k front := by
    have hline : '\n' ∉ first := Text.not_mem_of_mem_splitOn (by rw [hlines]; exact List.mem_cons_self)
    refine notMem_indented (fun hmem => hline ?_) k
    rw [hfirst]
    exact List.mem_append_left _ hmem
  have hinside : MarkerKind.inside k content = '\n' :: Fragment.indented k front ++ d :: (tail ++ '\n' ::
      ((rest.map (Fragment.indented k)).flatMap (· ++ ['\n']) ++ List.replicate k ' ')) := by
    rw [MarkerKind.inside, hlines, List.map_cons, List.flatMap_cons, hfirst]
    simp [Fragment.indented]
  have htaken : ((Fragment.indented k front).takeWhile isWhiteSpace).count '\n' = 0 :=
    List.count_eq_zero_of_not_mem fun hmem => hfeed ((List.takeWhile_prefix _).subset hmem)
  rw [hinside, Text.takeWhile_append_stop hd, List.takeWhile_cons_of_pos (by decide),
    List.count_cons_self, htaken]

/-- The last one stands on the last line. -/
theorem count_trimEnd_inside (h : kind.CanHold name content) (k : Nat) :
    (Text.trimEnd (MarkerKind.inside k content)).count '\n' = (content.splitOn '\n').length := by
  obtain ⟨init, last, hlines⟩ : ∃ init last, content.splitOn '\n' = init ++ [last] :=
    ⟨_, _, (List.dropLast_concat_getLast (List.splitOn_ne_nil '\n' content)).symm⟩
  have hline : ∀ l ∈ init ++ [last], '\n' ∉ l := fun l hl =>
    Text.not_mem_of_mem_splitOn (by rwa [hlines])
  obtain ⟨front, d, tail, hlast, hd, htail⟩ :=
    Text.exists_eq_append_of_not_isBlank (h.lastLine last (by rw [hlines]; simp))
  have hfront : '\n' ∉ Fragment.indented k front ++ [d] := by
    have hfeed : '\n' ∉ last := hline last (by simp)
    rw [hlast] at hfeed
    simp only [List.mem_append, List.mem_cons, not_or] at hfeed
    simpa [Fragment.indented, hfeed.1] using hfeed.2.1
  have hblank : Text.isBlank (tail ++ '\n' :: List.replicate k ' ') = true := by
    rw [Text.isBlank, List.all_eq_true] at htail ⊢
    intro c hc
    simp only [List.mem_append, List.mem_cons, List.mem_replicate] at hc
    rcases hc with hc | rfl | ⟨-, rfl⟩
    · exact htail c hc
    · decide
    · decide
  have hinside : MarkerKind.inside k content = '\n' :: (init.map (Fragment.indented k)).flatMap
      (· ++ ['\n']) ++ Fragment.indented k front ++ d :: (tail ++ '\n' :: List.replicate k ' ') := by
    rw [MarkerKind.inside, hlines, List.map_append, List.flatMap_append, hlast]
    simp [Fragment.indented]
  have hinit : ∀ l ∈ init.map (Fragment.indented k), '\n' ∉ l := by
    intro l hl
    obtain ⟨m, hm, rfl⟩ := List.mem_map.mp hl
    exact notMem_indented (hline m (List.mem_append_left _ hm)) k
  rw [hinside, Text.trimEnd_append hd hblank, List.append_assoc, List.count_append,
    List.count_cons_self, count_flatMap_line hinit, List.count_eq_zero_of_not_mem hfront, hlines]
  simp

/-- **What is between the markers is the excerpt**, but for the indentation. -/
theorem normalizeIndentation_inside (h : kind.CanHold name content) (k : Nat) :
    Fragment.normalizeIndentation (MarkerKind.inside k content) k = content := by
  have hnormal := Fragment.normalizeIndentation_indented (List.splitOn_ne_nil '\n' content)
    (fun l hl => Text.not_mem_of_mem_splitOn hl) h.lineEnds h.firstLine h.lastLine k
  rwa [List.intercalate_splitOn] at hnormal

/-- **The excerpt is taken out of the file as it was put there**, with the lines behind the first one. -/
theorem extract_eq_of_written (h : kind.CanHold name content)
    (hfile : parse? (kind.written k name content) = some file) (source : Text) (bodyOnly : Bool) :
    file.extract source name bodyOnly = .ok
      { source, name
        lines := some ⟨1, (content.splitOn '\n').length⟩
        content
        kind := language } := by
  have hlayout := layout_of_parse? hfile
  rw [MarkerKind.written_eq] at hlayout
  have hfront : (kind.front k name).count '\n' = 0 := by
    refine List.count_eq_zero_of_not_mem (notMem_indented ?_ k)
    exact (MarkerKind.isMarkerLine_opening kind h.nameLine).noLineFeed
  have hblank : Text.isBlank (MarkerKind.inside k content) = false := by
    cases hblank : Text.isBlank (MarkerKind.inside k content) with
    | false => rfl
    | true =>
      have hcount := count_trimEnd_inside h k
      rw [Text.trimEnd_of_isBlank hblank] at hcount
      exact absurd (List.length_eq_zero_iff.mp hcount.symm) (List.splitOn_ne_nil '\n' content)
  have hlines := lineRange_of_not_isBlank hlayout hblank
  rw [List.count_append, List.count_append, hfront, count_takeWhile_inside h, count_trimEnd_inside h,
    Nat.zero_add, Nat.zero_add] at hlines
  have hslice : Span.slice ⟨Text.width (kind.front k name),
      Text.width (kind.front k name) + Text.width (MarkerKind.inside k content)⟩ file.layout.text =
      MarkerKind.inside k content := by
    rw [hlayout]
    exact Text.slice_append _ _ _
  have hcolumn : file.layout.lines.columnOf k = k := by
    have hspaces := LineTable.columnOf_width (Or.inl rfl) (b := List.replicate k ' ')
      (by simp) (kind.opening name ++ (MarkerKind.inside k content ++ kind.closing))
    rw [List.nil_append, List.nil_append, MarkerKind.width_replicate_space, ← List.append_assoc] at hspaces
    rw [hlayout]
    exact hspaces
  unfold extract
  rw [locate_written h hfile]
  simp only [Except.map, hlines, hslice, hcolumn, normalizeIndentation_inside h]

end SourceFile

namespace SourceExtractor

variable {kind : MarkerKind} {k : Nat} {name content source : Text} {store : Store}

/-- **An excerpt that was written is extracted as it was**, from each source that stands for the file it was
written to, whether the file was read before or is read now. -/
theorem extract_written (h : kind.CanHold name content) {file : SourceFile}
    (hfile : SourceFile.parse? (kind.written k name content) = some file) {x : SourceExtractor}
    (hview : x.view store source = .ok file) (hhandle : canHandle store source = .ok ())
    {options : Options} {bodyOnly : Bool}
    (hoptions : options.getBoolean "body-only".toList false = .ok bodyOnly) :
    (x.extract store source name options).1 = .ok
      { source, name
        lines := some ⟨1, (content.splitOn '\n').length⟩
        content
        kind := SourceFile.language } := by
  rw [extract_fst, hoptions, hhandle, hview]
  simp only [SourceFile.extract_eq_of_written h hfile, mapError_ok]

/-- A type of the name of the excerpt, in which a marker of the other kind opens another one. -/
def markedType : Text := "class A \x7b\n  // begin-snippet: A\n\n  int F;\n\x7d".toList

/-- A region that holds the type is read back from the file that it was written to. -/
theorem extract_written_markedType :
    (fresh.extract (storeOf (MarkerKind.region.written 2 "A".toList markedType)) "R.cs".toList
      "A".toList Options.empty).1 = .ok
        { source := "R.cs".toList, name := "A".toList, lines := some ⟨1, 5⟩, content := markedType
          kind := SourceFile.language } := by
  have hcanHold : MarkerKind.region.CanHold "A".toList markedType := by
    constructor
    case noLineComment =>
      intro hkind
      cases hkind
    all_goals decide +kernel
  have hsome : (SourceFile.parse? (MarkerKind.region.written 2 "A".toList markedType)).isSome = true := by
    decide +kernel
  obtain ⟨file, hfile⟩ := Option.isSome_iff_exists.mp hsome
  have hread : ∀ text, (storeOf text).read "R.cs".toList = .ok text := fun _ => rfl
  have hhandle : ∀ text, canHandle (storeOf text) "R.cs".toList = .ok () := fun _ => rfl
  have hview : fresh.view (storeOf (MarkerKind.region.written 2 "A".toList markedType))
      "R.cs".toList = .ok file := by
    rw [view_eq, readNow, hread]
    simp only [fresh, List.lookup_nil, hfile]
  have hunset : Options.empty.getBoolean "body-only".toList false = .ok false := rfl
  have hlines : (markedType.splitOn '\n').length = 5 := by decide +kernel
  rw [← hlines]
  exact extract_written hcanHold hfile hview (hhandle _) hunset

end SourceExtractor

end Excerpt
