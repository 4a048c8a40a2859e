import Excerpt.Proofs.Source.Nesting

/-!
# Excerpt — bodies begin behind their declarations

The body of a declaration begins behind its first token: a block behind its brace, and an expression behind its
arrow, in front of which the header stands.

* **`OutlineNode.All`**, **`Outline.all_of_read?`** — what holds of each member that is read and of each block that
  is closed holds of all declarations of an outline.
* **`Layout.anchor_lt_start_of_bodySpan?`**, **`SourceFile.anchor_lt_start_of_body`** — where the range of a body
  begins.
-/

namespace Excerpt

/-- The declaration of the node and those in it have the property. -/
inductive OutlineNode.All (P : Declared → Prop) : OutlineNode → Prop where
  | node (d : Declared) (members : List OutlineNode) (hd : P d)
      (hmembers : ∀ n ∈ members, OutlineNode.All P n) : OutlineNode.All P (.node d members)

namespace OutlineNode

variable {P : Declared → Prop}

mutual

theorem of_mem_entries {parent : Option Nat} {index : Nat} {n : OutlineNode} (h : n.All P) {e : OutlineEntry}
    (he : e ∈ entries parent index n) : P e.declared := by
  cases n with
  | node d members =>
    cases h with
    | node _ _ hd hmembers =>
      unfold entries at he
      rcases List.mem_cons.mp he with rfl | hmem
      · exact hd
      · exact of_mem_entriesAll hmembers hmem

theorem of_mem_entriesAll {parent : Option Nat} {index : Nat} {nodes : List OutlineNode}
    (h : ∀ n ∈ nodes, n.All P) {e : OutlineEntry} (he : e ∈ entriesAll parent index nodes) :
    P e.declared := by
  cases nodes with
  | nil => simp [entriesAll] at he
  | cons n rest =>
    unfold entriesAll at he
    rcases List.mem_append.mp he with hmem | hmem
    · exact of_mem_entries (h n List.mem_cons_self) hmem
    · exact of_mem_entriesAll (fun m hm => h m (List.mem_cons_of_mem n hm)) hmem

end

end OutlineNode

namespace Outline

/-- The declaration of a block, when it is closed. -/
def OpenBlock.declared (b : OpenBlock) (closing last : Nat) : Declared :=
  ⟨b.kind, b.name, b.first, last, if b.kind = .type then BodyExtent.between? b.header closing else none⟩

/-- What is declared has the property, whether a block is closed or a member is passed. -/
structure Establishes (P : Declared → Prop) : Prop where
  closed : ∀ (b : OpenBlock) (closing last : Nat), P (b.declared closing last)
  passed : ∀ (enclosing : Option Enclosing) (code : List Code) (d : Declared) (n pos : Nat),
    Member.read enclosing code = .whole (some d) n →
      P ⟨d.kind, d.name, pos, pos + d.last, d.body.map (·.shift pos)⟩

/-- All declarations that are read so far have the property. -/
structure Reading.Holds (P : Declared → Prop) (r : Reading) : Prop where
  done : ∀ n ∈ r.done, n.All P
  before : ∀ b ∈ r.outer, ∀ n ∈ b.before, n.All P

variable {P : Declared → Prop}

theorem all_close (hP : Establishes P) {b : OpenBlock} (hb : ∀ n ∈ b.before, n.All P) (closing last : Nat)
    {members : List OutlineNode} (hmembers : ∀ n ∈ members, n.All P) :
    ∀ n ∈ b.close closing last members, n.All P :=
  List.forall_mem_cons.mpr
    ⟨.node _ _ (hP.closed b closing last) fun n hn => hmembers n (List.mem_reverse.mp hn), hb⟩

theorem holds_closeBlock (hP : Establishes P) {r : Reading} (h : r.Holds P) (rest : List Code) :
    (r.closeBlock rest).Holds P := by
  unfold Reading.closeBlock
  split
  · exact ⟨h.done, by simp⟩
  · next b surrounding houter =>
    have hbefore : ∀ b' ∈ b :: surrounding, ∀ n ∈ b'.before, n.All P := houter ▸ h.before
    obtain ⟨hb, hsurrounding⟩ := List.forall_mem_cons.mp hbefore
    split
    · split
      · exact ⟨all_close hP hb _ _ h.done, hsurrounding⟩
      · exact ⟨all_close hP hb _ _ h.done, hsurrounding⟩
    · exact ⟨h.done, h.before⟩

theorem holds_takeMember (hP : Establishes P) {r : Reading} (h : r.Holds P) :
    (r.takeMember (Member.read r.enclosing r.code)).Holds P := by
  cases hread : Member.read r.enclosing r.code with
  | whole declared n =>
    refine ⟨?_, h.before⟩
    intro node hnode
    rcases List.mem_append.mp hnode with hnew | hold
    · obtain ⟨d, hd, rfl⟩ := List.mem_map.mp hnew
      rw [Option.mem_toList.mp hd] at hread
      exact .node _ [] (hP.passed _ _ d n r.pos hread) (by simp)
    · exact h.done node hold
  | opening kind name header closable =>
    exact ⟨by simp [Reading.takeMember], List.forall_mem_cons.mpr ⟨h.done, h.before⟩⟩

/-- **One step keeps the property.** -/
theorem holds_next (hP : Establishes P) {r : Reading} (h : r.Holds P) : r.next.Holds P := by
  have htaken := holds_takeMember hP h
  unfold Reading.next
  split
  · exact h
  · next t rest hcode =>
    rw [hcode] at htaken
    split
    · exact holds_closeBlock hP h rest
    · exact htaken

/-- **Every run keeps the property.** -/
theorem holds_of_reaches (hP : Establishes P) {r r' : Reading} (h : r.Holds P) (hreach : Reaches r r') :
    r'.Holds P := by
  induction hreach with
  | refl r => exact h
  | step _ _ ih => exact ih (holds_next hP h)

theorem all_closeAll (hP : Establishes P) {last : Nat} {overrun : Bool} {outer : List OpenBlock}
    {done nodes : List OutlineNode} (houter : ∀ b ∈ outer, ∀ n ∈ b.before, n.All P)
    (hdone : ∀ n ∈ done, n.All P) (h : closeAll last overrun outer done = some nodes) :
    ∀ n ∈ nodes, n.All P := by
  induction outer generalizing done with
  | nil =>
    obtain rfl := Option.some.inj h
    intro n hn
    exact hdone n (List.mem_reverse.mp hn)
  | cons b outer ih =>
    obtain ⟨hb, houter⟩ := List.forall_mem_cons.mp houter
    unfold closeAll at h
    split at h
    · cases h
    · exact ih houter (all_close hP hb _ _ hdone) h

/-- **What holds of each member that is passed and of each block that is closed holds of all declarations.** -/
theorem all_of_read? (hP : Establishes P) {code : List Code} {nodes : List OutlineNode}
    (h : read? code = some nodes) : ∀ n ∈ nodes, n.All P := by
  have hstart : (Reading.start code).Holds P := ⟨by simp [Reading.start], by simp [Reading.start]⟩
  have hfinish := holds_of_reaches hP hstart (reaches_finish _)
  exact all_closeAll hP hfinish.before hfinish.done h

end Outline

/-! ## Where bodies begin -/

/-- An expression is not the first thing in what is declared. -/
def Declared.BeginsBeforeExpression (d : Declared) : Prop :=
  ∀ first last, d.body = some (.expression first last) → d.first < first

theorem BodyExtent.between?_ne_expression (opening closing first last : Nat) :
    between? opening closing ≠ some (.expression first last) := by
  unfold between?
  split <;> simp

namespace Member

theorem pos_of_bodyOf {ending : HeaderEnd} {header : Nat} {tail : List Code} {first last : Nat}
    (h : bodyOf ending header tail = some (.expression first last)) : 0 < first := by
  cases ending with
  | block => exact absurd h (BodyExtent.between?_ne_expression _ _ _ _)
  | arrow =>
    unfold bodyOf at h
    dsimp only at h
    -- with or without a semicolon the expression begins behind the arrow
    split at h
    all_goals
      split at h
      · obtain ⟨rfl, -⟩ := BodyExtent.expression.inj (Option.some.inj h)
        exact Nat.succ_pos header
      · cases h
  | _ => simp [bodyOf] at h

/-- The declaration of a member that is passed, if it has one. -/
theorem eq_of_declare_eq_whole {kind : DeclarationKind} {name : Option Text} {length n : Nat}
    {body : Option BodyExtent} {d : Declared} (h : declare kind name length body = whole (some d) n) :
    d.body = body := by
  obtain ⟨hd, -⟩ := whole.inj h
  obtain ⟨text, -, rfl⟩ := Option.map_eq_some_iff.mp hd
  rfl

/-- A member that is passed has no body, or what follows its header. One case for each way to read one. -/
theorem body_of_read {enclosing : Option Enclosing} {code : List Code} {d : Declared} {n : Nat}
    (h : read enclosing code = whole (some d) n) :
    d.body = none ∨ ∃ ending header tail, d.body = bodyOf ending header tail := by
  rcases read_shape enclosing code with ⟨place, -, hread⟩ | ⟨-, ⟨place, name, hread⟩ | hrest⟩
  · rw [hread] at h
    cases h
  · rw [hread, Parts.asType] at h
    split at h
    · exact Or.inl (eq_of_declare_eq_whole h)
    · split at h
      · exact Or.inr ⟨_, _, _, eq_of_declare_eq_whole h⟩
      · cases h
  · rcases hrest with hread | ⟨name, hread⟩ | hread | hread
    · rw [hread] at h
      cases h
    · exact Or.inl (eq_of_declare_eq_whole (hread.symm.trans h))
    · exact Or.inr ⟨_, _, _, eq_of_declare_eq_whole (hread.symm.trans h)⟩
    · exact Or.inr ⟨_, _, _, eq_of_declare_eq_whole (hread.symm.trans h)⟩

end Member

/-- The body of a block is no expression, and the expression of a member stands behind its header. -/
theorem Outline.establishes_beginsBeforeExpression : Establishes Declared.BeginsBeforeExpression where
  closed b closing last first last' h := by
    unfold OpenBlock.declared at h
    dsimp only at h
    split at h
    · exact absurd h (BodyExtent.between?_ne_expression _ _ _ _)
    · cases h
  passed enclosing code d n pos hread first last h := by
    obtain ⟨body, hbody, hshift⟩ := Option.map_eq_some_iff.mp h
    cases body with
    | block opening closing => cases hshift
    | expression start stop =>
      obtain ⟨rfl, rfl⟩ := BodyExtent.expression.inj hshift
      rcases Member.body_of_read hread with hnone | ⟨ending, header, tail, heq⟩
      · cases hbody.symm.trans hnone
      · have hpos := Member.pos_of_bodyOf (heq.symm.trans hbody)
        show pos < start + pos
        omega

namespace Layout

variable {text : Text}

/-- **A body begins behind the first token of its declaration.** -/
theorem anchor_lt_start_of_bodySpan? {d : Declared} (hfits : d.Fits (ofText text).code.size)
    (hbehind : d.BeginsBeforeExpression) {b : BodyExtent} (hb : d.body = some b) {span : Span}
    (hspan : (ofText text).bodySpan? b = some span) : (ofText text).anchor d.first < span.start := by
  have hsound := sound_ofText text
  have hordered := hfits.ordered
  have hlast := hfits.lt
  obtain ⟨i, t, hi, hcodeI, htokenI⟩ := exists_codeToken? hsound (Nat.lt_of_le_of_lt hordered hlast)
  have hanchor : (ofText text).anchor d.first = t.start := by
    unfold anchor
    rw [hi]
  have hpos : t.start < t.stop :=
    start_lt_stop_of_mem_tokensFrom (List.mem_toArray.mp (Array.mem_of_getElem? htokenI))
  rw [hanchor]
  cases b with
  | block opening closing =>
    obtain ⟨hopening, hinner, hclosing⟩ := hfits.body _ hb
    obtain ⟨j, u, hj, hcodeJ, htokenJ⟩ := exists_codeToken? hsound (p := opening) (by omega)
    obtain ⟨k, v, hk, hcodeK, -⟩ := exists_codeToken? hsound (p := closing) (by omega)
    -- the range begins behind the brace, which is no earlier than the first token
    have hstart := (between?_within hj hk (hsound.indices opening closing j k (by omega) hcodeJ hcodeK) hspan).1
    have hbefore := (start_le_start hsound (index_le_index hsound hopening hcodeI hcodeJ) htokenI htokenJ).1
    omega
  | expression start stop =>
    have hlt := hbehind start stop hb
    obtain ⟨hbegin, hle, hend⟩ := hfits.body _ hb
    obtain ⟨j, u, hj, hcodeJ, htokenJ⟩ := exists_codeToken? hsound (p := start) (by omega)
    obtain ⟨k, v, hk, -, -⟩ := exists_codeToken? hsound (p := stop) (by omega)
    simp only [bodySpan?, hj, hk, Option.bind_eq_bind, Option.bind_some, Option.pure_def,
      Option.some.injEq] at hspan
    subst hspan
    -- the first token is not empty, and ends before the expression
    have hbefore := hsound.tokens i j t u (hsound.indices d.first start i j hlt hcodeI hcodeJ) htokenI htokenJ
    exact Nat.lt_of_lt_of_le hpos hbefore

end Layout

/-- **A body begins behind the first token of its declaration**, in every source file. -/
theorem SourceFile.anchor_lt_start_of_body {text : Text} {file : SourceFile} (h : parse? text = some file)
    {d : Declaration} (hd : d ∈ file.declarations) {span : Span} (hspan : d.body = some span) :
    d.anchor < span.start := by
  obtain ⟨nodes, hnodes, rfl⟩ := Option.map_eq_some_iff.mp h
  obtain ⟨e, he, rfl⟩ := List.mem_map.mp (List.mem_toArray.mp hd)
  have hfits := OutlineNode.fits_of_mem_entriesAll (Outline.fits_of_read? hnodes) he
  have hbehind := OutlineNode.of_mem_entriesAll
    (Outline.all_of_read? Outline.establishes_beginsBeforeExpression hnodes) he
  obtain ⟨b, hb, hrange⟩ := Option.bind_eq_some_iff.mp hspan
  change e.declared.Fits (codeOf (tokenize text)).length at hfits
  rw [← Layout.size_code_ofText] at hfits
  exact Layout.anchor_lt_start_of_bodySpan? hfits hbehind hb hrange

end Excerpt
