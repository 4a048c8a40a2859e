import Excerpt.Proofs.Engine.View
import Excerpt.Proofs.Source.MarkedText
import Excerpt.Proofs.Text.Stripping

/-!
# Excerpt — source files with a byte order mark

The same is found in a source file with a byte order mark at its start as in one without. What is taken out there is
the same too, unless the excerpt goes up to the start of the file, and so takes the mark along, or is measured from the
first line, on which the mark counts for three more columns of indentation.

* **`SourceFile.IsFreeOfMark`** — neither is the case.
* **`SourceFile.extract_mark_iff`** — the excerpts are the same just then.
* **`SourceExtractor.extract_mark`** — and so they are for whoever asks for one.
* **`SourceExtractor.extract_mark_typeOnFirstLine`** — a type on the first line is taken out with the mark.
-/

namespace Excerpt

open Text (mark unmarked)

namespace SourceFile

variable {s : Text} {file marked : SourceFile}

/-- An excerpt on which a mark at the start of the file has no influence: it begins behind the start of the file, and
if it is measured from the first line, then none of its lines is indented further than that. -/
structure IsFreeOfMark (file : SourceFile) (place : Located) : Prop where
  start : place.span.start ≠ 0
  indentation : file.layout.lines.lineOf place.anchor = 0 →
    ∀ l ∈ Fragment.keptLines (place.span.slice file.layout.text),
      (l.takeWhile isIndent).length ≤ file.layout.lines.columnOf place.anchor

/-- An excerpt ends behind the mark. -/
theorem le_stop_of_isPlace (h : parse? (mark :: s) = some marked) {place : Located}
    (hplace : marked.IsPlace place) : 3 ≤ place.span.stop := by
  have hordered := (hplace.isIn h).ordered
  cases hplace with
  | full hd =>
    have hanchor := le_anchor_of_mem_declarations h hd
    obtain ⟨e, rfl, hfits⟩ := (sound_of_parse? h).exists_entry hd
    rw [layout_of_parse? h] at hfits hanchor ⊢
    have hlt := (Layout.startOffset_le_anchor_lt_endOffset hfits.ordered hfits.lt).2
    exact Nat.le_of_lt (Nat.lt_of_le_of_lt hanchor hlt)
  | body hd hspan =>
    have hanchor := le_anchor_of_mem_declarations h hd
    have hlt := anchor_lt_start_of_body h hd hspan
    dsimp only at hordered ⊢
    omega
  | closed _ hu _ => exact le_start_of_mem_tokens h hu

/-- The lines of a range behind the mark. -/
theorem lineRange_withoutMark (h : parse? (mark :: s) = some marked) {span : Span} (hstart : 3 ≤ span.start)
    (hslice : (span.moved unmarked).slice s = span.slice (mark :: s)) :
    (marked.withoutMark s).lineRange (span.moved unmarked) = marked.lineRange span := by
  have hline : ∀ n, (LineTable.ofText s).lineOf ((span.moved unmarked).start + n) =
      (LineTable.ofText (mark :: s)).lineOf (span.start + n) := by
    intro n
    have hoffset : (span.moved unmarked).start + n = unmarked (span.start + n) := by
      show span.start - 3 + n = span.start + n - 3
      omega
    rw [hoffset, LineTable.lineOf_unmarked]
  unfold lineRange
  rw [layout_of_parse? h]
  dsimp only [withoutMark, Layout.ofText]
  rw [hslice]
  split
  · rw [← Nat.add_zero (span.moved unmarked).start, ← Nat.add_zero span.start, hline]
  · rw [Nat.add_sub_assoc (by omega), Nat.add_sub_assoc (by omega), hline, hline]

/-- The text of a range behind the mark. -/
theorem slice_unmarked {span : Span} (hspan : span.IsIn (mark :: s)) (hstart : 3 ≤ span.start) :
    (span.moved unmarked).slice s = span.slice (mark :: s) := by
  obtain ⟨start, stop⟩ := span
  obtain ⟨hordered, hbegin, hend⟩ := hspan
  dsimp only at hstart hordered hbegin hend
  obtain ⟨p, r, rfl, rfl⟩ := hbegin.exists_of_mark hstart
  have hsplit : Text.IsOffset (mark :: p ++ r) stop := hend
  obtain ⟨t, q, rfl, rfl⟩ := hsplit.exists_append (by rwa [Text.width_cons_mark])
  have hmarked : Text.slice (mark :: p ++ (t ++ q)) (Text.width (mark :: p))
      (Text.width (mark :: p) + Text.width t) = t := Text.slice_append ..
  have hplain : Text.slice (p ++ (t ++ q)) (Text.width p) (Text.width p + Text.width t) = t :=
    Text.slice_append ..
  rw [Text.width_cons_mark] at hmarked
  have hstop : unmarked (Text.width (mark :: p) + Text.width t) = Text.width p + Text.width t := by
    rw [Text.width_cons_mark, unmarked]
    omega
  show Text.slice (p ++ (t ++ q)) (unmarked (Text.width p + 3)) (unmarked _) =
    Text.slice (mark :: p ++ (t ++ q)) _ _
  rw [hstop, Text.width_cons_mark, hmarked]
  exact hplain

/-- A range from the start of the file on holds the mark. -/
theorem exists_slice_of_start_eq_zero {span : Span} (hspan : span.IsIn (mark :: s)) (hstart : span.start = 0)
    (hstop : 3 ≤ span.stop) : span.slice (mark :: s) = mark :: (span.moved unmarked).slice s := by
  obtain ⟨start, stop⟩ := span
  obtain ⟨-, -, hend⟩ := hspan
  dsimp only at hstart hstop hend
  subst hstart
  obtain ⟨p, q, rfl, rfl⟩ := hend.exists_of_mark hstop
  have hmarked : Text.slice ([] ++ (mark :: p ++ q)) (Text.width [])
      (Text.width [] + Text.width (mark :: p)) = mark :: p := Text.slice_append ..
  have hplain : Text.slice ([] ++ (p ++ q)) (Text.width []) (Text.width [] + Text.width p) = p :=
    Text.slice_append ..
  rw [List.nil_append, Text.width_nil, Nat.zero_add, Text.width_cons_mark] at hmarked
  rw [List.nil_append, Text.width_nil, Nat.zero_add] at hplain
  show Text.slice (mark :: p ++ q) 0 (Text.width p + 3) = mark :: Text.slice (p ++ q) 0 (Text.width p)
  rw [hplain]
  exact hmarked

/-- The lines of the content of an excerpt that is measured behind the mark. -/
theorem normalizeIndentation_mark_iff {n : Nat} (hn : Text.IsOffset (mark :: s) n) (hle : 3 ≤ n) (t : Text) :
    Fragment.normalizeIndentation t ((LineTable.ofText (mark :: s)).columnOf n) =
        Fragment.normalizeIndentation t ((LineTable.ofText s).columnOf (unmarked n)) ↔
      ((LineTable.ofText s).lineOf (unmarked n) = 0 → ∀ l ∈ Fragment.keptLines t,
        (l.takeWhile isIndent).length ≤ (LineTable.ofText s).columnOf (unmarked n)) := by
  rw [LineTable.columnOf_mark hn hle]
  by_cases hline : (LineTable.ofText s).lineOf (unmarked n) = 0
  · rw [if_pos hline, Fragment.normalizeIndentation_eq_iff (Nat.lt_add_of_pos_right (by decide))]
    exact ⟨fun h _ => h, fun h => h hline⟩
  · rw [if_neg hline, Nat.add_zero]
    exact ⟨fun _ h => absurd h hline, fun _ => rfl⟩

/-- The lines and the content of an excerpt, where it is found. -/
def takenAt (file : SourceFile) (place : Located) : LineRange × Text :=
  (file.lineRange place.span, Fragment.normalizeIndentation (place.span.slice file.layout.text)
    (file.layout.lines.columnOf place.anchor))

theorem extract_eq (file : SourceFile) (source name : Text) (bodyOnly : Bool) :
    file.extract source name bodyOnly = ((file.locate name bodyOnly).map file.takenAt).map fun taken =>
      ⟨source, name, some taken.1, taken.2, language⟩ := by
  unfold extract
  cases file.locate name bodyOnly <;> rfl

/-- An excerpt from the start of the file on is taken out with the mark. -/
theorem takenAt_ne_of_start_eq_zero (h : parse? (mark :: s) = some marked) {place : Located}
    (hcase : marked.IsPlace place) (hstart : place.span.start = 0) :
    marked.takenAt place ≠ (marked.withoutMark s).takenAt (place.moved unmarked) := by
  intro heq
  have hslice := exists_slice_of_start_eq_zero (hcase.isIn h) hstart (le_stop_of_isPlace h hcase)
  -- there is one mark more in the one content than in the other one
  have hcount := congrArg (fun taken => taken.2.count mark) heq
  unfold takenAt at hcount
  dsimp only at hcount
  rw [Fragment.count_normalizeIndentation (by decide), Fragment.count_normalizeIndentation (by decide),
    layout_of_parse? h] at hcount
  change (place.span.slice (mark :: s)).count mark = ((place.span.moved unmarked).slice s).count mark at hcount
  rw [hslice, List.count_cons_self] at hcount
  omega

/-- **What is taken out in one place is the same without the mark just where the mark has no influence on it.** -/
theorem takenAt_mark_iff (h : parse? (mark :: s) = some marked) {place : Located} (hcase : marked.IsPlace place) :
    marked.takenAt place = (marked.withoutMark s).takenAt (place.moved unmarked) ↔
      (marked.withoutMark s).IsFreeOfMark (place.moved unmarked) := by
  rcases start_of_isPlace h hcase with hstart | hstart
  · refine iff_of_false (takenAt_ne_of_start_eq_zero h hcase hstart) fun hfree => ?_
    apply hfree.start
    show unmarked place.span.start = 0
    rw [hstart]
    rfl
  · have hslice := slice_unmarked (hcase.isIn h) (Nat.le_of_lt hstart)
    have hlines := lineRange_withoutMark h (Nat.le_of_lt hstart) hslice
    obtain ⟨hanchor, hoffset⟩ := anchor_of_isPlace h hcase
    have hcontent := normalizeIndentation_mark_iff hoffset hanchor (place.span.slice (mark :: s))
    have hmoved : (marked.withoutMark s).takenAt (place.moved unmarked) =
        (marked.lineRange place.span, Fragment.normalizeIndentation (place.span.slice (mark :: s))
          ((LineTable.ofText s).columnOf (unmarked place.anchor))) := by
      show ((marked.withoutMark s).lineRange (place.span.moved unmarked),
        Fragment.normalizeIndentation ((place.span.moved unmarked).slice s) _) = _
      rw [hlines, hslice]
      rfl
    rw [hmoved, takenAt, layout_of_parse? h, Prod.mk.injEq]
    refine (and_iff_right rfl).trans (hcontent.trans ⟨fun hfree => ⟨?_, ?_⟩, fun hfree => ?_⟩)
    · show unmarked place.span.start ≠ 0
      unfold unmarked
      omega
    · show _ → ∀ l ∈ Fragment.keptLines ((place.span.moved unmarked).slice s), _
      rw [hslice]
      exact hfree
    · have hindentation := hfree.indentation
      change _ → ∀ l ∈ Fragment.keptLines ((place.span.moved unmarked).slice s), _ at hindentation
      rw [hslice] at hindentation
      exact hindentation

/-- **The excerpt is the same without the mark just where the mark has no influence on it.** -/
theorem extract_mark_iff (h : parse? (mark :: s) = some marked) (source name : Text) (bodyOnly : Bool) :
    marked.extract source name bodyOnly = (marked.withoutMark s).extract source name bodyOnly ↔
      ∀ place, (marked.withoutMark s).locate name bodyOnly = .ok place →
        (marked.withoutMark s).IsFreeOfMark place := by
  rw [extract_eq, extract_eq, locate_unmarked h]
  cases hplace : marked.locate name bodyOnly with
  | error reason => exact ⟨fun _ _ => nofun, fun _ => rfl⟩
  | ok place =>
    have htaken := takenAt_mark_iff h (isPlace_of_locate h hplace)
    constructor
    · intro heq found hfound
      obtain rfl := Except.ok.inj hfound
      obtain ⟨-, -, hlines, hcontent, -⟩ := Fragment.mk.inj (Except.ok.inj heq)
      exact htaken.mp (Prod.ext (Option.some.inj hlines) hcontent)
    · intro hfree
      have heq := htaken.mpr (hfree _ rfl)
      show Except.ok _ = Except.ok _
      rw [heq]

end SourceFile

/-! ## Whoever asks for it -/

theorem mapError_injective {α ε ε' : Type} {f : ε → ε'} (hf : Function.Injective f) :
    Function.Injective (Except.mapError f : Except ε α → Except ε' α) := by
  intro a b heq
  cases a <;> cases b <;> simp_all [Except.mapError]
  exact hf heq

namespace SourceExtractor

variable {source text : Text} {x y : SourceExtractor} {store other : Store}

theorem explain_injective (source name : Text) : Function.Injective (explain source name) := by
  intro a b heq
  cases a <;> cases b <;> first | rfl | cases heq

/-- **What a byte order mark changes**: from a source that starts with one, the same is extracted under each name and
with all options as from the source without it, or for the same reason nothing is, just where there is no excerpt on
which the mark has an influence. -/
theorem extract_mark (hview : x.view store source = outlined source text)
    (hother : y.view other source = outlined source (mark :: text))
    (hhandle : canHandle store source = canHandle other source) (name : Text) (options : Options) :
    (y.extract other source name options).1 = (x.extract store source name options).1 ↔
      ∀ bodyOnly file place, options.getBoolean "body-only".toList false = .ok bodyOnly →
        canHandle store source = .ok () → SourceFile.parse? text = some file →
          file.locate name bodyOnly = .ok place → file.IsFreeOfMark place := by
  rw [extract_fst, extract_fst, hview, hother, hhandle, outlined, outlined]
  cases options.getBoolean "body-only".toList false with
  | error e => exact ⟨fun _ _ _ _ => nofun, fun _ => rfl⟩
  | ok bodyOnly =>
    cases canHandle other source with
    | error e => exact ⟨fun _ _ _ _ _ => nofun, fun _ => rfl⟩
    | ok _ =>
      -- either both texts have an outline, or neither
      have hparse := SourceFile.parse?_unmarked text
      cases hmarked : SourceFile.parse? (mark :: text) with
      | none =>
        rw [hmarked] at hparse
        rw [hparse]
        exact ⟨fun _ _ _ _ _ _ => nofun, fun _ => rfl⟩
      | some marked =>
        rw [hmarked] at hparse
        rw [hparse]
        dsimp only [Option.map_some]
        rw [(mapError_injective (explain_injective source name)).eq_iff, SourceFile.extract_mark_iff hmarked]
        constructor
        · intro hfree bodyOnly' file place hbodyOnly _ hfile hplace
          obtain rfl := Except.ok.inj hbodyOnly
          obtain rfl := Option.some.inj hfile
          exact hfree place hplace
        · intro hfree place hplace
          exact hfree bodyOnly _ place rfl rfl rfl hplace

/-- A type that begins on the first line. -/
def typeOnFirstLine : Text := "class R\n\x7b\n    int x;\n\x7d".toList

/-- It is taken out with the mark, and its lines are moved to the left. -/
theorem extract_mark_typeOnFirstLine :
    typeOnFirstLine.head? ≠ some mark ∧
      (fresh.extract (storeOf typeOnFirstLine) "R.cs".toList "R".toList .empty).1 =
        .ok ⟨"R.cs".toList, "R".toList, some ⟨0, 3⟩, typeOnFirstLine, "cs".toList⟩ ∧
      (fresh.extract (storeOf (mark :: typeOnFirstLine)) "R.cs".toList "R".toList .empty).1 =
        .ok ⟨"R.cs".toList, "R".toList, some ⟨0, 3⟩,
          mark :: "class R\n\x7b\n int x;\n\x7d".toList, "cs".toList⟩ ∧
      (fresh.extract (storeOf (mark :: typeOnFirstLine)) "R.cs".toList "R".toList .empty).1 ≠
        (fresh.extract (storeOf typeOnFirstLine) "R.cs".toList "R".toList .empty).1 := by
  decide +kernel

/-- A type that does not begin on the first line. -/
def typeBehindFirstLine : Text := "using A;\nclass B\n\x7b\n    int x;\n\x7d".toList

/-- The mark has no influence on it. -/
theorem extract_mark_typeBehindFirstLine :
    (fresh.extract (storeOf (mark :: typeBehindFirstLine)) "R.cs".toList "B".toList .empty).1 =
        (fresh.extract (storeOf typeBehindFirstLine) "R.cs".toList "B".toList .empty).1 ∧
      ∀ bodyOnly file place, Options.empty.getBoolean "body-only".toList false = .ok bodyOnly →
        canHandle (storeOf typeBehindFirstLine) "R.cs".toList = .ok () →
          SourceFile.parse? typeBehindFirstLine = some file →
            file.locate "B".toList bodyOnly = .ok place → file.IsFreeOfMark place := by
  have hview : ∀ text, fresh.view (storeOf text) "R.cs".toList = outlined "R.cs".toList text :=
    fun _ => view_eq_outlined rfl rfl
  have hresult : ∀ text ∈ [mark :: typeBehindFirstLine, typeBehindFirstLine],
      (fresh.extract (storeOf text) "R.cs".toList "B".toList .empty).1 =
        .ok ⟨"R.cs".toList, "B".toList, some ⟨1, 4⟩,
          "class B\n\x7b\n    int x;\n\x7d".toList, "cs".toList⟩ := by
    decide +kernel
  have hsame : (fresh.extract (storeOf (mark :: typeBehindFirstLine)) "R.cs".toList "B".toList .empty).1 =
      (fresh.extract (storeOf typeBehindFirstLine) "R.cs".toList "B".toList .empty).1 := by
    rw [hresult _ List.mem_cons_self, hresult _ (List.mem_cons_of_mem _ List.mem_cons_self)]
  exact ⟨hsame, (extract_mark (hview _) (hview _) rfl _ _).mp hsame⟩

end SourceExtractor

end Excerpt
