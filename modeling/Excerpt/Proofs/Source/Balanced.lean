import Excerpt.Source.Header

/-!
# Excerpt — balanced code

Whatever is read by counting brackets passes over code in which they nest properly. Each way to count
counts brackets of some sorts only, and all of them agree on balanced code.

* **`Balanced`** — the brackets of the code nest properly; it may be asked that no semicolon stands
  outside of them.
* **`groupLength_append`**, **`expressionLength_append`**, **`measure_append`**, **`topLevel_append`** —
  what each way to count makes of balanced code within brackets.
* **`groupLength_group`** — a group ends with the bracket that closes it.
-/

namespace Excerpt

/-- The kinds of brackets that belong together. -/
inductive TokenKind.Matches : TokenKind → TokenKind → Prop where
  | round : Matches .parenOpen .parenClose
  | square : Matches .bracketOpen .bracketClose
  | curly : Matches .braceOpen .braceClose

/-- Whether a token of the kind opens or closes a bracket. Angle brackets do not count. -/
def TokenKind.isBracket : TokenKind → Bool
  | parenOpen | parenClose | bracketOpen | bracketClose | braceOpen | braceClose => true
  | _ => false

/-- The brackets of the code nest properly, and unless `semicolons` stand outside of them there are
none. -/
inductive Balanced : Bool → List Code → Prop where
  | nil {semicolons : Bool} : Balanced semicolons []
  | token {semicolons : Bool} (t : Code) (rest : List Code) (ht : t.kind.isBracket = false)
      (hsemicolon : t.kind = .semicolon → semicolons = true) (hrest : Balanced semicolons rest) :
      Balanced semicolons (t :: rest)
  | group {semicolons : Bool} (opening closing : Code) (inner rest : List Code)
      (hmatches : opening.kind.Matches closing.kind) (hinner : Balanced true inner)
      (hrest : Balanced semicolons rest) :
      Balanced semicolons (opening :: (inner ++ closing :: rest))

namespace Balanced

theorem append {semicolons : Bool} {a b : List Code} (ha : Balanced semicolons a) (hb : Balanced semicolons b) :
    Balanced semicolons (a ++ b) := by
  induction ha with
  | nil => exact hb
  | token t rest ht hsemicolon _ ih => exact .token t _ ht hsemicolon (ih hb)
  | group o c inner rest hmatches hinner _ _ ih =>
    rw [List.cons_append, List.append_assoc, List.cons_append]
    exact .group o c inner _ hmatches hinner (ih hb)

theorem singleton {semicolons : Bool} {t : Code} (ht : t.kind.isBracket = false)
    (hsemicolon : t.kind = .semicolon → semicolons = true) : Balanced semicolons [t] :=
  .token t [] ht hsemicolon .nil

/-- Code without brackets and semicolons. -/
theorem of_forall {semicolons : Bool} {code : List Code}
    (h : ∀ t ∈ code, t.kind.isBracket = false ∧ t.kind ≠ .semicolon) : Balanced semicolons code := by
  induction code with
  | nil => exact .nil
  | cons t rest ih =>
    obtain ⟨⟨hbracket, hsemicolon⟩, hrest⟩ := List.forall_mem_cons.mp h
    exact .token t rest hbracket (fun hkind => absurd hkind hsemicolon) (ih hrest)

end Balanced

namespace TokenKind.Matches

variable {opening closing opening' closing' : TokenKind}

theorem isBracket_opening (h : Matches opening closing) : opening.isBracket = true := by
  cases h <;> rfl

theorem isBracket_closing (h : Matches opening closing) : closing.isBracket = true := by
  cases h <;> rfl

theorem ne (h : Matches opening closing) (h' : Matches opening' closing') : opening ≠ closing' := by
  cases h <;> cases h' <;> decide

/-- Brackets open alike just where they close alike. -/
theorem eq_iff (h : Matches opening closing) (h' : Matches opening' closing') :
    opening = opening' ↔ closing = closing' := by
  cases h <;> cases h' <;> decide

theorem kinds (h : Matches opening closing) :
    opening = parenOpen ∧ closing = parenClose ∨ opening = bracketOpen ∧ closing = bracketClose ∨
      opening = braceOpen ∧ closing = braceClose := by
  cases h <;> decide

end TokenKind.Matches

namespace Code

/-! ## Groups -/

theorem groupLength_opening {opening closing : TokenKind} {t : Code} (ht : t.kind = opening)
    (depth : Nat) (rest : List Code) :
    groupLength opening closing depth (t :: rest) =
      groupLength opening closing (depth + 1) rest + 1 := by
  rw [groupLength, if_pos ht]

theorem groupLength_closing {opening closing : TokenKind} (hmatches : opening.Matches closing)
    {t : Code} (ht : t.kind = closing) (depth : Nat) (rest : List Code) :
    groupLength opening closing depth (t :: rest) =
      if depth ≤ 1 then 1 else groupLength opening closing (depth - 1) rest + 1 := by
  have hne : t.kind ≠ opening := by
    rw [ht]
    exact (hmatches.ne hmatches).symm
  rw [groupLength, if_neg hne, if_pos ht]

theorem groupLength_other {opening closing : TokenKind} {t : Code} (hopening : t.kind ≠ opening)
    (hclosing : t.kind ≠ closing) (depth : Nat) (rest : List Code) :
    groupLength opening closing depth (t :: rest) = groupLength opening closing depth rest + 1 := by
  rw [groupLength, if_neg hopening, if_neg hclosing]

/-- **Within a group, brackets of its own sort and of others are passed over.** Induction on the code
that is balanced. -/
theorem groupLength_append {opening closing : TokenKind} (hmatches : opening.Matches closing)
    {semicolons : Bool} {p : List Code} (h : Balanced semicolons p) {depth : Nat} (hdepth : 0 < depth)
    (rest : List Code) :
    groupLength opening closing depth (p ++ rest) =
      p.length + groupLength opening closing depth rest := by
  induction h generalizing depth rest with
  | nil => rw [List.nil_append, List.length_nil, Nat.zero_add]
  | token t p ht _ _ ih =>
    have hopening : t.kind ≠ opening := by
      intro hkind
      rw [hkind, hmatches.isBracket_opening] at ht
      exact Bool.noConfusion ht
    have hclosing : t.kind ≠ closing := by
      intro hkind
      rw [hkind, hmatches.isBracket_closing] at ht
      exact Bool.noConfusion ht
    rw [List.cons_append, groupLength_other hopening hclosing, ih hdepth, List.length_cons]
    omega
  | group o c inner p ho _ _ ihInner ihRest =>
    rw [List.cons_append, List.append_assoc, List.cons_append]
    simp only [List.length_cons, List.length_append]
    by_cases hsame : o.kind = opening
    · -- a group of the same sort is one bracket deeper
      have hclosing : c.kind = closing := (ho.eq_iff hmatches).mp hsame
      have hdeep : ¬ depth + 1 ≤ 1 := by omega
      rw [groupLength_opening hsame, ihInner (Nat.succ_pos depth), groupLength_closing hmatches hclosing,
        if_neg hdeep, Nat.succ_sub_one, ihRest hdepth]
      omega
    · have hother : c.kind ≠ closing := fun hkind => hsame ((ho.eq_iff hmatches).mpr hkind)
      have hne : c.kind ≠ opening := fun hkind => hmatches.ne ho hkind.symm
      rw [groupLength_other hsame (ho.ne hmatches), ihInner hdepth, groupLength_other hne hother,
        ihRest hdepth]
      omega

/-- **A group ends with the bracket that closes it.** -/
theorem groupLength_group {opening closing : TokenKind} (hmatches : opening.Matches closing)
    {semicolons : Bool} {inner : List Code} (h : Balanced semicolons inner) {c : Code}
    (hc : c.kind = closing) (rest : List Code) :
    groupLength opening closing 1 (inner ++ c :: rest) = inner.length + 1 := by
  rw [groupLength_append hmatches h Nat.one_pos, groupLength_closing hmatches hc,
    if_pos (Nat.le_refl 1)]

/-! ## Expressions -/

theorem expressionLength_opening {t : Code} {closing : TokenKind} (ht : t.kind.Matches closing)
    (depth : Nat) (rest : List Code) :
    expressionLength depth (t :: rest) = expressionLength (depth + 1) rest + 1 := by
  rcases ht.kinds with ⟨hkind, -⟩ | ⟨hkind, -⟩ | ⟨hkind, -⟩ <;> rw [expressionLength, hkind]

theorem expressionLength_closing {t : Code} {opening : TokenKind} (ht : opening.Matches t.kind)
    (depth : Nat) (rest : List Code) :
    expressionLength (depth + 1) (t :: rest) = expressionLength depth rest + 1 := by
  rcases ht.kinds with ⟨-, hkind⟩ | ⟨-, hkind⟩ | ⟨-, hkind⟩ <;> rw [expressionLength, hkind] <;> rfl

/-- A token that is no bracket is passed over, but for a semicolon outside of brackets. -/
theorem expressionLength_other {t : Code} (ht : t.kind.isBracket = false) {depth : Nat}
    (hdepth : t.kind = .semicolon → 0 < depth) (rest : List Code) :
    expressionLength depth (t :: rest) = expressionLength depth rest + 1 := by
  rw [expressionLength]
  split
  case h_7 hkind => exact if_neg (Nat.ne_of_gt (hdepth hkind))
  case h_8 => rfl
  all_goals
    next hkind =>
      rw [hkind] at ht
      exact Bool.noConfusion ht

/-- **An expression goes on behind balanced code**, outside of brackets where no semicolon ends it. -/
theorem expressionLength_append {semicolons : Bool} {p : List Code} (h : Balanced semicolons p)
    {depth : Nat} (hdepth : semicolons = true → 0 < depth) (rest : List Code) :
    expressionLength depth (p ++ rest) = p.length + expressionLength depth rest := by
  induction h generalizing depth rest with
  | nil => rw [List.nil_append, List.length_nil, Nat.zero_add]
  | token t p ht hsemicolon _ ih =>
    rw [List.cons_append, expressionLength_other ht fun hkind => hdepth (hsemicolon hkind), ih hdepth,
      List.length_cons]
    omega
  | group o c inner p ho _ _ ihInner ihRest =>
    rw [List.cons_append, List.append_assoc, List.cons_append, expressionLength_opening ho,
      ihInner (fun _ => Nat.succ_pos depth), expressionLength_closing ho, ihRest hdepth]
    simp only [List.length_cons, List.length_append]
    omega

/-- **An expression without semicolons outside of brackets ends with the first one behind it.** -/
theorem expressionLength_semicolon {p : List Code} (h : Balanced false p) {t : Code}
    (ht : t.kind = .semicolon) (rest : List Code) :
    expressionLength 0 (p ++ t :: rest) = p.length + 1 := by
  rw [expressionLength_append h (by decide)]
  simp only [expressionLength, ht, if_true]

end Code

/-! ## Headers -/

namespace Header

theorem ne_round_square_of_isBracket {t : Code} (ht : t.kind.isBracket = false) :
    t.kind ≠ .parenOpen ∧ t.kind ≠ .bracketOpen ∧ t.kind ≠ .parenClose ∧ t.kind ≠ .bracketClose := by
  refine ⟨?_, ?_, ?_, ?_⟩
  all_goals
    intro hkind
    rw [hkind] at ht
    exact Bool.noConfusion ht

theorem measure_opening {t : Code} (ht : t.kind = .parenOpen ∨ t.kind = .bracketOpen) (depth : Nat)
    (rest : List Code) :
    measure depth (t :: rest) = ((measure (depth + 1) rest).1 + 1, (measure (depth + 1) rest).2) := by
  rcases ht with hkind | hkind <;> rw [measure, hkind]

theorem measure_closing {t : Code} (ht : t.kind = .parenClose ∨ t.kind = .bracketClose) (depth : Nat)
    (rest : List Code) :
    measure (depth + 1) (t :: rest) = ((measure depth rest).1 + 1, (measure depth rest).2) := by
  rcases ht with hkind | hkind <;> rw [measure, hkind] <;> rfl

/-- A token within brackets, or one that ends no header, is passed over if it is no bracket that
counts. -/
theorem measure_other {t : Code}
    (ht : t.kind ≠ .parenOpen ∧ t.kind ≠ .bracketOpen ∧ t.kind ≠ .parenClose ∧ t.kind ≠ .bracketClose)
    {depth : Nat} (hdepth : HeaderEnd.ofKind? t.kind = none ∨ 0 < depth) (rest : List Code) :
    measure depth (t :: rest) = ((measure depth rest).1 + 1, (measure depth rest).2) := by
  have hnone : (if depth = 0 then HeaderEnd.ofKind? t.kind else none) = none := by
    rcases hdepth with hkind | hpos
    · rw [hkind, ite_self]
    · exact if_neg (by omega)
  rw [measure]
  split
  · next hkind => exact absurd hkind ht.1
  · next hkind => exact absurd hkind ht.2.1
  · next hkind => exact absurd hkind ht.2.2.1
  · next hkind => exact absurd hkind ht.2.2.2
  · rw [hnone]

/-- **Balanced code within brackets belongs to the header.** -/
theorem measure_append {semicolons : Bool} {p : List Code} (h : Balanced semicolons p) {depth : Nat}
    (hdepth : 0 < depth) (rest : List Code) :
    measure depth (p ++ rest) = (p.length + (measure depth rest).1, (measure depth rest).2) := by
  induction h generalizing depth rest with
  | nil => rw [List.nil_append, List.length_nil, Nat.zero_add]
  | token t p ht _ _ ih =>
    rw [List.cons_append, measure_other (ne_round_square_of_isBracket ht) (Or.inr hdepth), ih hdepth,
      List.length_cons]
    exact Prod.ext (by dsimp only; omega) rfl
  | group o c inner p ho _ _ ihInner ihRest =>
    rw [List.cons_append, List.append_assoc, List.cons_append]
    simp only [List.length_cons, List.length_append]
    rcases ho.kinds with ⟨hopening, hclosing⟩ | ⟨hopening, hclosing⟩ | ⟨hopening, hclosing⟩
    · rw [measure_opening (Or.inl hopening), ihInner (Nat.succ_pos depth),
        measure_closing (Or.inl hclosing), ihRest hdepth]
      exact Prod.ext (by dsimp only; omega) rfl
    · rw [measure_opening (Or.inr hopening), ihInner (Nat.succ_pos depth),
        measure_closing (Or.inr hclosing), ihRest hdepth]
      exact Prod.ext (by dsimp only; omega) rfl
    · -- braces do not count
      rw [measure_other (by rw [hopening]; decide) (Or.inr hdepth), ihInner hdepth,
        measure_other (by rw [hclosing]; decide) (Or.inr hdepth), ihRest hdepth]
      exact Prod.ext (by dsimp only; omega) rfl

theorem topLevel_opening {t : Code} (ht : t.kind = .parenOpen ∨ t.kind = .bracketOpen) (depth : Nat)
    (before rest : List Code) :
    topLevel depth before (t :: rest) =
      (if depth = 0 then [⟨before, t, rest⟩] else []) ++ topLevel (depth + 1) (t :: before) rest := by
  rcases ht with hkind | hkind <;> rw [topLevel, hkind] <;> cases depth <;> rfl

theorem topLevel_closing {t : Code} (ht : t.kind = .parenClose ∨ t.kind = .bracketClose) (depth : Nat)
    (before rest : List Code) :
    topLevel (depth + 1) before (t :: rest) = topLevel depth (t :: before) rest := by
  rcases ht with hkind | hkind <;> rw [topLevel, hkind] <;> rfl

theorem topLevel_other {t : Code}
    (ht : t.kind ≠ .parenOpen ∧ t.kind ≠ .bracketOpen ∧ t.kind ≠ .parenClose ∧ t.kind ≠ .bracketClose)
    (depth : Nat) (before rest : List Code) :
    topLevel depth before (t :: rest) =
      (if depth = 0 then [⟨before, t, rest⟩] else []) ++ topLevel depth (t :: before) rest := by
  rw [topLevel]
  split
  · next hkind => exact absurd hkind ht.1
  · next hkind => exact absurd hkind ht.2.1
  · next hkind => exact absurd hkind ht.2.2.1
  · next hkind => exact absurd hkind ht.2.2.2
  · cases depth <;> rfl

/-- **No place in balanced code within brackets is outside of them.** -/
theorem topLevel_append {semicolons : Bool} {p : List Code} (h : Balanced semicolons p) {depth : Nat}
    (hdepth : 0 < depth) (before rest : List Code) :
    topLevel depth before (p ++ rest) = topLevel depth (p.reverse ++ before) rest := by
  have hne : depth ≠ 0 := Nat.ne_of_gt hdepth
  induction h generalizing depth before rest with
  | nil => rfl
  | token t p ht _ _ ih =>
    rw [List.cons_append, topLevel_other (ne_round_square_of_isBracket ht), if_neg hne, List.nil_append,
      ih hdepth _ _ hne, List.reverse_cons, List.append_assoc]
    rfl
  | group o c inner p ho _ _ ihInner ihRest =>
    have hreverse : (o :: (inner ++ c :: p)).reverse ++ before =
        p.reverse ++ (c :: (inner.reverse ++ (o :: before))) := by
      simp
    rw [hreverse, List.cons_append, List.append_assoc, List.cons_append]
    rcases ho.kinds with ⟨hopening, hclosing⟩ | ⟨hopening, hclosing⟩ | ⟨hopening, hclosing⟩
    · rw [topLevel_opening (Or.inl hopening), if_neg hne, List.nil_append,
        ihInner (Nat.succ_pos depth) _ _ (Nat.succ_ne_zero depth), topLevel_closing (Or.inl hclosing),
        ihRest hdepth _ _ hne]
    · rw [topLevel_opening (Or.inr hopening), if_neg hne, List.nil_append,
        ihInner (Nat.succ_pos depth) _ _ (Nat.succ_ne_zero depth), topLevel_closing (Or.inr hclosing),
        ihRest hdepth _ _ hne]
    · -- braces do not count
      rw [topLevel_other (by rw [hopening]; decide), if_neg hne, List.nil_append, ihInner hdepth _ _ hne,
        topLevel_other (by rw [hclosing]; decide), if_neg hne, List.nil_append, ihRest hdepth _ _ hne]

end Header

end Excerpt
