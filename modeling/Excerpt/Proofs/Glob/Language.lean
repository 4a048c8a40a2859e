import Excerpt.Glob.Match
import Excerpt.Proofs.Text.Utf8
import Mathlib.Data.List.Basic

/-!
# Excerpt — what shapes and glob patterns match

A shape is matched with bytes by marking the places between them, piece after piece. A place is marked in the end where
the bytes before it can be divided so that the second part is of the shape, and the place between the parts was marked
at the start. So the shape fits all the bytes where they are of it, and a pattern that begins with characters and ends
in a star matches what begins with these characters.

* **`Shape.Matches`** — the bytes that are of a shape.
* **`Shape.getElem?_advance_iff`** — which places are marked.
* **`Shape.fits_iff`** — a shape fits the bytes that are of it.
* **`Glob.matchesText_literals_anyRun`** — patterns of characters and a star.
-/

namespace Excerpt

namespace Shape

/-- The bytes are of the shape. -/
inductive Matches : Shape → List UInt8 → Prop
  | nothing : Matches .nothing []
  | one {set : ByteSet} {b : UInt8} (h : set.has b = true) : Matches (.one set) [b]
  | run {set : ByteSet} {bytes : List UInt8} (h : ∀ b ∈ bytes, set.has b = true) : Matches (.run set) bytes
  | both {a b : Shape} {x y : List UInt8} (ha : Matches a x) (hb : Matches b y) : Matches (.both a b) (x ++ y)
  | first {a b : Shape} {x : List UInt8} (h : Matches a x) : Matches (.either a b) x
  | second {a b : Shape} {x : List UInt8} (h : Matches b x) : Matches (.either a b) x

/-! ## Marks -/

theorem length_spread (set : ByteSet) (reached : Bool) {bytes : List UInt8} {marks : List Bool}
    (h : marks.length = bytes.length + 1) : (spread set reached bytes marks).length = bytes.length + 1 := by
  induction bytes generalizing marks reached with
  | nil =>
    obtain ⟨marked, rfl⟩ := List.length_eq_one_iff.mp h
    rfl
  | cons b bytes ih =>
    obtain ⟨marked, marks, rfl⟩ := List.exists_of_length_succ marks h
    rw [spread, List.length_cons, ih _ (Nat.succ.inj h), List.length_cons]

theorem length_advance (shape : Shape) {bytes : List UInt8} {marks : List Bool}
    (h : marks.length = bytes.length + 1) : (shape.advance bytes marks).length = bytes.length + 1 := by
  induction shape generalizing marks with
  | nothing => exact h
  | one set => simp [advance, step, h]
  | run set => exact length_spread set false h
  | both a b iha ihb => exact ihb (iha h)
  | either a b iha ihb => simp [advance, iha h, ihb h]

/-- A place is marked in the union of marks where it is marked in one of them. -/
theorem getElem?_zipWith_or_iff {first second : List Bool} (h : first.length = second.length) {i : Nat} :
    (List.zipWith (· || ·) first second)[i]? = some true ↔ first[i]? = some true ∨ second[i]? = some true := by
  rw [List.getElem?_zipWith]
  rcases Nat.lt_or_ge i first.length with hlt | hge
  · simp [List.getElem?_eq_getElem hlt, List.getElem?_eq_getElem (h ▸ hlt)]
  · simp [List.getElem?_eq_none hge, List.getElem?_eq_none (h ▸ hge)]

/-- A byte leads from a marked place to the one behind it. -/
theorem getElem?_step_iff (set : ByteSet) (before after : List UInt8) (marks : List Bool) :
    (step set (before ++ after) marks)[before.length]? = some true ↔
      ∃ x b, before = x ++ [b] ∧ marks[x.length]? = some true ∧ set.has b = true := by
  obtain rfl | ⟨x, b, rfl⟩ := List.eq_nil_or_concat' before
  · simp [step]
  · have hbyte : (x ++ [b] ++ after)[x.length]? = some b := by simp
    rw [step, List.length_append, List.length_singleton, List.getElem?_cons_succ, List.getElem?_zipWith, hbyte]
    constructor
    · intro h
      cases hmark : marks[x.length]? with
      | none => simp [hmark] at h
      | some marked =>
        obtain ⟨rfl, hb⟩ : marked = true ∧ set.has b = true := by simpa [hmark] using h
        exact ⟨x, b, rfl, hmark, hb⟩
    · rintro ⟨x', b', heq, hmark, hb⟩
      obtain ⟨rfl, hlast⟩ := List.append_inj' heq rfl
      obtain rfl := List.singleton_inj.mp hlast
      simp [hmark, hb]

/-- Bytes of the set lead from a marked place, or from the first one if that is reached. Induction on the bytes. -/
theorem getElem?_spread_iff (set : ByteSet) (reached : Bool) {before after : List UInt8} {marks : List Bool}
    (h : marks.length = (before ++ after).length + 1) :
    (spread set reached (before ++ after) marks)[before.length]? = some true ↔
      (reached = true ∧ ∀ b ∈ before, set.has b = true) ∨
        ∃ x y, before = x ++ y ∧ marks[x.length]? = some true ∧ ∀ b ∈ y, set.has b = true := by
  obtain ⟨marked, marks, rfl⟩ := List.exists_of_length_succ marks h
  induction before generalizing marks marked reached with
  | nil =>
    have hhead : (spread set reached ([] ++ after) (marked :: marks))[0]? = some (marked || reached) := by
      cases after <;> simp [spread]
    rw [List.length_nil, hhead]
    simp [or_comm]
  | cons b before ih =>
    obtain ⟨next, marks, rfl⟩ := List.exists_of_length_succ marks (Nat.succ.inj h)
    rw [List.cons_append, spread, List.length_cons, List.getElem?_cons_succ, ih _ _ _ (Nat.succ.inj h)]
    constructor
    · rintro (⟨hreached, hbefore⟩ | ⟨x, y, rfl, hmark, hy⟩)
      · obtain ⟨hfrom, hb⟩ := Bool.and_eq_true_iff.mp hreached
        have hall : ∀ c ∈ b :: before, set.has c = true := List.forall_mem_cons.mpr ⟨hb, hbefore⟩
        rcases Bool.or_eq_true_iff.mp hfrom with rfl | hreached
        · exact Or.inr ⟨[], b :: before, rfl, rfl, hall⟩
        · exact Or.inl ⟨hreached, hall⟩
      · exact Or.inr ⟨b :: x, y, rfl, hmark, hy⟩
    · rintro (⟨rfl, hall⟩ | ⟨x, y, heq, hmark, hy⟩)
      · obtain ⟨hb, hbefore⟩ := List.forall_mem_cons.mp hall
        exact Or.inl ⟨by simp [hb], hbefore⟩
      · cases x with
        | nil =>
          obtain rfl : b :: before = y := heq
          obtain rfl : marked = true := by simpa using hmark
          obtain ⟨hb, hbefore⟩ := List.forall_mem_cons.mp hy
          exact Or.inl ⟨by simp [hb], hbefore⟩
        | cons c x =>
          obtain ⟨rfl, rfl⟩ := List.cons.inj heq
          exact Or.inr ⟨x, y, rfl, hmark, hy⟩

/-- **Which places are marked:** those to which bytes of the shape lead from a place that was marked. Induction on the
shape. -/
theorem getElem?_advance_iff (shape : Shape) {before after : List UInt8} {marks : List Bool}
    (h : marks.length = (before ++ after).length + 1) :
    (shape.advance (before ++ after) marks)[before.length]? = some true ↔
      ∃ x y, before = x ++ y ∧ marks[x.length]? = some true ∧ shape.Matches y := by
  induction shape generalizing before after marks with
  | nothing =>
    constructor
    · exact fun hmark => ⟨before, [], (List.append_nil before).symm, hmark, .nothing⟩
    · rintro ⟨x, y, rfl, hmark, hy⟩
      cases hy
      rwa [List.append_nil]
  | one set =>
    rw [advance, getElem?_step_iff]
    constructor
    · rintro ⟨x, b, heq, hmark, hb⟩
      exact ⟨x, [b], heq, hmark, .one hb⟩
    · rintro ⟨x, y, heq, hmark, hy⟩
      cases hy with
      | one hb => exact ⟨x, _, heq, hmark, hb⟩
  | run set =>
    rw [advance, getElem?_spread_iff set false h]
    constructor
    · rintro (⟨hfalse, -⟩ | ⟨x, y, heq, hmark, hy⟩)
      · cases hfalse
      · exact ⟨x, y, heq, hmark, .run hy⟩
    · rintro ⟨x, y, heq, hmark, hy⟩
      cases hy with
      | run hy => exact Or.inr ⟨x, y, heq, hmark, hy⟩
  | both a b iha ihb =>
    rw [advance, ihb (length_advance a h)]
    constructor
    · rintro ⟨x, y, rfl, hmark, hy⟩
      -- the bytes of the first piece come before those of the second one
      rw [List.append_assoc] at h hmark
      obtain ⟨w, z, rfl, hmark, hz⟩ := (iha h).mp hmark
      exact ⟨w, z ++ y, List.append_assoc .., hmark, .both hz hy⟩
    · rintro ⟨x, y, rfl, hmark, hy⟩
      cases hy with
      | @both a b z w hz hw =>
        refine ⟨x ++ z, w, (List.append_assoc ..).symm, ?_, hw⟩
        have hsame : x ++ (z ++ w) ++ after = x ++ z ++ (w ++ after) := by simp
        rw [hsame] at h ⊢
        exact (iha h).mpr ⟨x, z, rfl, hmark, hz⟩
  | either a b iha ihb =>
    have hlength : (a.advance (before ++ after) marks).length = (b.advance (before ++ after) marks).length :=
      (length_advance a h).trans (length_advance b h).symm
    rw [advance, getElem?_zipWith_or_iff hlength, iha h, ihb h]
    constructor
    · rintro (⟨x, y, heq, hmark, hy⟩ | ⟨x, y, heq, hmark, hy⟩)
      · exact ⟨x, y, heq, hmark, .first hy⟩
      · exact ⟨x, y, heq, hmark, .second hy⟩
    · rintro ⟨x, y, heq, hmark, hy⟩
      cases hy with
      | first hy => exact Or.inl ⟨x, y, heq, hmark, hy⟩
      | second hy => exact Or.inr ⟨x, y, heq, hmark, hy⟩

/-- **A shape fits the bytes that are of it.** -/
theorem fits_iff {shape : Shape} {bytes : List UInt8} : shape.fits bytes = true ↔ shape.Matches bytes := by
  unfold fits
  generalize hmarks : (true :: bytes.map fun _ => false) = marks
  have hlength : marks.length = (bytes ++ []).length + 1 := by simp [← hmarks]
  -- at the start only the first place is marked
  have hfirst : ∀ x : List UInt8, marks[x.length]? = some true ↔ x = [] := by
    intro x
    subst hmarks
    cases x with
    | nil => simp
    | cons b x => simp [List.getElem?_replicate]
  have hlast := getElem?_advance_iff shape hlength
  have hend := length_advance shape hlength
  rw [List.append_nil] at hlast hend
  rw [List.getLast?_eq_getElem?, hend, Nat.add_sub_cancel]
  have hmark : (shape.advance bytes marks)[bytes.length]? = some true ↔ shape.Matches bytes := by
    rw [hlast]
    simp [hfirst]
  rw [← hmark]
  cases (shape.advance bytes marks)[bytes.length]? <;> simp

theorem has_single_iff {b c : UInt8} : (ByteSet.single b).has c = true ↔ c = b := by
  have hbounds : b ≤ c ∧ c ≤ b ↔ c = b :=
    ⟨fun ⟨hlow, hhigh⟩ => UInt8.le_antisymm hhigh hlow, fun h => h ▸ ⟨UInt8.le_refl _, UInt8.le_refl _⟩⟩
  simp [ByteSet.single, ByteSet.has, hbounds]

theorem matches_ofBytes_iff {x y : List UInt8} : (ofBytes x).Matches y ↔ y = x := by
  unfold ofBytes
  induction x generalizing y with
  | nil =>
    constructor
    · intro h
      cases h
      rfl
    · rintro rfl
      exact .nothing
  | cons b x ih =>
    rw [List.foldr_cons]
    constructor
    · intro h
      cases h with
      | both ha hb =>
        obtain rfl := ih.mp hb
        cases ha with
        | one hc =>
          obtain rfl := has_single_iff.mp hc
          rfl
    · rintro rfl
      exact .both (x := [b]) (.one (has_single_iff.mpr rfl)) (ih.mpr rfl)

end Shape

/-- **The bytes of a text begin with those of another one** where the text begins with that. -/
theorem Utf8.encode_prefix_iff {p s : Text} : encode p <+: encode s ↔ p <+: s := by
  constructor
  · rintro ⟨rest, hrest⟩
    -- reading the bytes of the second text gives the first one back, and more
    have hread : ∀ p : Text, decodeLossy (encode p ++ rest) = p ++ decodeLossy rest := by
      intro p
      induction p with
      | nil => rfl
      | cons c p ih =>
        rw [encode, List.flatMap_cons, List.append_assoc, decodeLossy_utf8EncodeChar_append]
        exact congrArg (c :: ·) ih
    have hs := hread p
    rw [hrest, decodeLossy_encode] at hs
    exact ⟨decodeLossy rest, hs.symm⟩
  · rintro ⟨rest, rfl⟩
    rw [encode, encode, List.flatMap_append]
    exact List.prefix_append _ _

namespace Glob

/-- The shape of characters and a star. Induction on the characters. -/
theorem exists_shape?_literals_anyRun (wild : ByteSet) (p : Text) :
    ∃ shape, shape? wild (p.map .literal ++ [.anyRun]) = some shape ∧
      ∀ bytes, shape.Matches bytes ↔ ∃ rest, bytes = Utf8.encode p ++ rest ∧ ∀ b ∈ rest, wild.has b = true := by
  induction p with
  | nil =>
    refine ⟨.run wild, rfl, fun bytes => ?_⟩
    constructor
    · intro h
      cases h with
      | run h => exact ⟨bytes, rfl, h⟩
    · rintro ⟨rest, rfl, hrest⟩
      exact .run hrest
  | cons c p ih =>
    obtain ⟨shape, hshape, hmatches⟩ := ih
    refine ⟨.both (.ofBytes (String.utf8EncodeChar c)) shape, ?_, fun bytes => ?_⟩
    · rw [List.map_cons, List.cons_append, shape?, hshape, itemShape?]
    · rw [Utf8.encode, List.flatMap_cons, ← Utf8.encode]
      constructor
      · intro h
        cases h with
        | both hc hp =>
          obtain rfl := Shape.matches_ofBytes_iff.mp hc
          obtain ⟨rest, rfl, hrest⟩ := (hmatches _).mp hp
          exact ⟨rest, (List.append_assoc ..).symm, hrest⟩
      · rintro ⟨rest, rfl, hrest⟩
        rw [List.append_assoc]
        exact .both (Shape.matches_ofBytes_iff.mpr rfl) ((hmatches _).mpr ⟨rest, rfl, hrest⟩)

/-- **A pattern of characters and a star** matches what begins with these characters. -/
theorem matchesText_literals_anyRun {p s : Text} :
    matchesText (p.map .literal ++ [.anyRun]) s = true ↔ p <+: s := by
  obtain ⟨found, hfound, hmatches⟩ := exists_shape?_literals_anyRun .all p
  have hshape : shape .all (p.map .literal ++ [.anyRun]) = found := by
    cases p with
    | nil => exact Option.some.inj hfound
    | cons c p => exact congrArg (Option.getD · .nothing) hfound
  have hall : ∀ b, ByteSet.all.has b = true := fun b => rfl
  unfold matchesText
  rw [hshape, Shape.fits_iff, hmatches, ← Utf8.encode_prefix_iff]
  constructor
  · rintro ⟨rest, hrest, -⟩
    exact ⟨rest, hrest.symm⟩
  · rintro ⟨rest, hrest⟩
    exact ⟨rest, hrest.symm, fun b _ => hall b⟩

end Glob

end Excerpt
