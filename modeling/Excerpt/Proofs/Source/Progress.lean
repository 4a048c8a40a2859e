import Excerpt.Source.Lexeme
import Excerpt.Proofs.Source.Reading

/-!
# Excerpt — reading makes progress

What is read of a source is a tree, and its reading is a descent: a member is passed whole, or its header is read and
then its members, up to the brace that closes them. The steps from reading to reading are that descent in a line, with
the open blocks on a stack. Whatever the code, each step goes forward, so the descent ends: a member behind the place
where it begins, and the members of a source behind its last token. Nothing is skipped on the way, and what cannot be
made sense of is passed like any other member.

* **`Reads`** — the descent, from where it begins to where it ends.
* **`Member.parts_le_length`** — the parts of a member end one behind the other.
* **`exists_advance_next`** — one step goes forward; **`pos_le_of_reaches`** — no run goes back.
* **`Reads.reaches`** — the descent takes these steps and no others.
* **`Reads.unique`**, **`exists_reads_members`** — it is determined, and it ends.
* **`Reads.leaves`** — what is open behind it.
* **`exists_step_over`** — every token is read in a step on the way.
* **`reading_progresses`** — all of this for any code and from any position in it.
-/

namespace Excerpt

/-! ## The parts of a member -/

namespace Member

/-- **The parts of a member end one behind the other:** the attribute sections, the header and, where the member is
read whole, what follows the header. -/
theorem parts_le_length (enclosing : Option Enclosing) (code : List Code) :
    (split code).attributes ≤ (split code).headerEnd ∧
      (split code).headerEnd ≤ (read enclosing code).length ∧
      ∀ declared n, read enclosing code = .whole declared n → (split code).length ≤ n := by
  have hparts : (split code).headerEnd ≤ (split code).length := Nat.le_add_right _ _
  refine ⟨Nat.le_add_right _ _, ?_⟩
  -- what is read whole takes all the parts, so only that is to be shown of it
  suffices h : (∃ kind name closable, read enclosing code = .opening kind name (split code).headerEnd closable) ∨
      ∃ declared n, read enclosing code = .whole declared n ∧ (split code).length ≤ n by
    rcases h with ⟨kind, name, closable, hread⟩ | ⟨declared, n, hread, hle⟩
    · rw [hread]
      exact ⟨Nat.le_succ _, nofun⟩
    · rw [hread]
      refine ⟨Nat.le_trans hparts hle, ?_⟩
      rintro _ _ ⟨⟩
      exact hle
  rcases read_shape enclosing code with ⟨place, -, hread⟩ | ⟨-, ⟨place, name, hread⟩ | hrest⟩
  · exact Or.inl ⟨_, _, _, hread⟩
  · unfold Parts.asType at hread
    split at hread
    · exact Or.inr ⟨_, _, hread, Nat.le_refl _⟩
    · split at hread
      · refine Or.inr ⟨_, _, hread, ?_⟩
        split
        · exact Nat.le_succ _
        · exact Nat.le_refl _
      · exact Or.inl ⟨_, _, _, hread⟩
  · rcases hrest with hread | ⟨name, hread⟩ | hread | hread
    · exact Or.inr ⟨_, _, hread, Nat.le_refl _⟩
    · exact Or.inr ⟨_, _, hread, Nat.le_refl _⟩
    · exact Or.inr ⟨_, _, hread, Nat.le_refl _⟩
    · exact Or.inr ⟨_, _, hread, Nat.le_add_right _ _⟩

theorem Fits.length_le {total : Nat} {m : Member} (h : m.Fits total) : m.length ≤ total + 1 := by
  cases m with
  | whole declared n => exact Nat.le_succ_of_le h.1
  | opening kind name header closable => exact Nat.succ_le_succ h.1

end Member

namespace Outline

/-! ## The descent -/

namespace Reading

/-- The next token is a closing brace. -/
def MeetsBrace (r : Reading) : Prop := ∃ t rest, r.code = t :: rest ∧ t.kind = .braceClose

/-- The next token is another one, with which a member begins. -/
def MeetsMember (r : Reading) : Prop := ∃ t rest, r.code = t :: rest ∧ t.kind ≠ .braceClose

theorem meetsBrace_or_meetsMember {r : Reading} (h : r.code ≠ []) : r.MeetsBrace ∨ r.MeetsMember := by
  obtain ⟨t, rest, hcode⟩ := List.exists_cons_of_ne_nil h
  exact (Decidable.em (t.kind = .braceClose)).imp (fun hkind => ⟨t, rest, hcode, hkind⟩)
    fun hkind => ⟨t, rest, hcode, hkind⟩

theorem MeetsBrace.code_ne_nil {r : Reading} (h : r.MeetsBrace) : r.code ≠ [] := by
  obtain ⟨t, rest, hcode, -⟩ := h
  rw [hcode]
  exact List.cons_ne_nil t rest

theorem MeetsMember.code_ne_nil {r : Reading} (h : r.MeetsMember) : r.code ≠ [] := by
  obtain ⟨t, rest, hcode, -⟩ := h
  rw [hcode]
  exact List.cons_ne_nil t rest

theorem MeetsMember.not_meetsBrace {r : Reading} (h : r.MeetsMember) : ¬ r.MeetsBrace := by
  obtain ⟨t, rest, hcode, hkind⟩ := h
  rintro ⟨t', rest', hcode', hkind'⟩
  obtain ⟨rfl, -⟩ := List.cons.inj (hcode.symm.trans hcode')
  exact hkind hkind'

theorem MeetsMember.next_eq {r : Reading} (h : r.MeetsMember) :
    r.next = r.takeMember (Member.read r.enclosing r.code) := by
  obtain ⟨t, rest, hcode, hkind⟩ := h
  exact next_eq_takeMember hcode hkind

end Reading

/-- What is read in one go: a member with all that stands in it, or the members up to the end of what they stand
in. -/
inductive Stage where
  | member
  | members

/-- The descent: reading a member, or some members, begins at the first reading and ends at the second one. The
members of a block end with the brace that closes it; where the innermost block is not closable, or none is open, they
end with the code alone, and braces on the way are passed. -/
inductive Reads : Stage → Reading → Reading → Prop where
  | whole {r : Reading} {declared : Option Declared} {n : Nat} (hmember : r.MeetsMember)
      (hread : Member.read r.enclosing r.code = .whole declared n) : Reads .member r r.next
  | opening {r r' : Reading} {kind : DeclarationKind} {name : Text} {header : Nat} {closable : Bool}
      (hmember : r.MeetsMember) (hread : Member.read r.enclosing r.code = .opening kind name header closable)
      (members : Reads .members r.next r') : Reads .member r r'
  | ended {r : Reading} (hcode : r.code = []) : Reads .members r r
  | closed {r : Reading} {b : OpenBlock} {outer : List OpenBlock} (hbrace : r.MeetsBrace)
      (houter : r.outer = b :: outer) (hclosable : b.closable = true) : Reads .members r r.next
  | passed {r r' : Reading} (hbrace : r.MeetsBrace) (hopen : ∀ b ∈ r.outer.head?, b.closable = false)
      (rest : Reads .members r.next r') : Reads .members r r'
  | member {r r₁ r' : Reading} (hmember : r.MeetsMember) (first : Reads .member r r₁)
      (rest : Reads .members r₁ r') : Reads .members r r'

/-! ## Steps go forward -/

theorem pos_takeMember (r : Reading) (m : Member) : (r.takeMember m).pos = r.pos + m.length := by
  cases m <;> rfl

theorem code_takeMember (r : Reading) (m : Member) : (r.takeMember m).code = r.code.drop m.length := by
  cases m <;> rfl

/-- A closing brace is read alone or with the semicolon behind it. -/
theorem exists_advance_closeBlock (r : Reading) (t : Code) (rest : List Code) :
    ∃ k, 0 < k ∧ k ≤ (t :: rest).length ∧ (r.closeBlock rest).pos = r.pos + k ∧
      (r.closeBlock rest).code = (t :: rest).drop k := by
  have hbrace : 0 < 1 ∧ 1 ≤ (t :: rest).length := ⟨Nat.one_pos, Nat.succ_le_succ (Nat.zero_le _)⟩
  unfold Reading.closeBlock
  split
  · exact ⟨1, hbrace.1, hbrace.2, rfl, rfl⟩
  · split
    · split
      · next hsemicolon =>
        cases rest with
        | nil => simp at hsemicolon
        | cons t' rest => exact ⟨2, Nat.two_pos, Nat.succ_le_succ (Nat.succ_le_succ (Nat.zero_le _)), rfl, rfl⟩
      · exact ⟨1, hbrace.1, hbrace.2, rfl, rfl⟩
    · exact ⟨1, hbrace.1, hbrace.2, rfl, rfl⟩

/-- **One step goes forward:** by at least one token, and by no more than are left and the one behind the end. -/
theorem exists_advance_next {r : Reading} (h : r.code ≠ []) :
    ∃ k, 0 < k ∧ k ≤ r.code.length + 1 ∧ r.next.pos = r.pos + k ∧ r.next.code = r.code.drop k := by
  obtain ⟨t, rest, hcode⟩ := List.exists_cons_of_ne_nil h
  by_cases hkind : t.kind = .braceClose
  · obtain ⟨k, hpos, hle, hnext, hdrop⟩ := exists_advance_closeBlock r t rest
    rw [next_eq_closeBlock hcode hkind, hcode]
    exact ⟨k, hpos, Nat.le_succ_of_le hle, hnext, hdrop⟩
  · refine ⟨(Member.read r.enclosing r.code).length, ?_, ?_, ?_, ?_⟩
    · rw [hcode]
      exact Member.length_pos r.enclosing t rest hkind
    · rw [hcode]
      exact (Member.read_fits r.enclosing rest hkind).length_le
    · rw [next_eq_takeMember hcode hkind, pos_takeMember]
    · rw [next_eq_takeMember hcode hkind, code_takeMember]

theorem pos_lt_pos_next {r : Reading} (h : r.code ≠ []) : r.pos < r.next.pos := by
  obtain ⟨k, hk, -, hpos, -⟩ := exists_advance_next h
  omega

/-- **No run goes back.** -/
theorem pos_le_of_reaches {r r' : Reading} (h : Reaches r r') : r.pos ≤ r'.pos := by
  induction h with
  | refl r => exact Nat.le_refl _
  | step hcode _ ih => exact Nat.le_trans (Nat.le_of_lt (pos_lt_pos_next hcode)) ih

theorem length_code_le_of_reaches {r r' : Reading} (h : Reaches r r') : r'.code.length ≤ r.code.length := by
  induction h with
  | refl r => exact Nat.le_refl _
  | step hcode _ ih => exact Nat.le_trans ih (Nat.le_of_lt (Reading.length_code_next_lt _ hcode))

/-- What is left to read is the code from the reading position on, and that passes the end by one at most. Nothing is
said of what was read before. -/
structure Reading.StandsIn (code : List Code) (r : Reading) : Prop where
  code_eq : r.code = code.drop r.pos
  pos_le : r.pos ≤ code.length + 1

variable {code : List Code} {r r' : Reading} {stage : Stage}

/-- One step stays in the code. -/
theorem standsIn_next (h : r.StandsIn code) (hcode : r.code ≠ []) : r.next.StandsIn code := by
  obtain ⟨k, -, hle, hpos, hdrop⟩ := exists_advance_next hcode
  have hlength : r.code.length = code.length - r.pos := by rw [h.code_eq, List.length_drop]
  have hleft : 0 < r.code.length := List.length_pos_iff.mpr hcode
  refine ⟨?_, by omega⟩
  rw [hdrop, h.code_eq, hpos, List.drop_drop]

/-- And so does every run. -/
theorem standsIn_of_reaches (h : r.StandsIn code) (hreach : Reaches r r') : r'.StandsIn code := by
  induction hreach with
  | refl r => exact h
  | step hcode _ ih => exact ih (standsIn_next h hcode)

/-- Where nothing is left to read, the reading position is the end of the code or the one behind it. -/
theorem pos_eq_of_code_eq_nil (h : r.StandsIn code) (hcode : r.code = []) :
    r.pos = code.length ∨ r.pos = code.length + 1 := by
  have hend : code.length ≤ r.pos := List.drop_eq_nil_iff.mp (h.code_eq.symm.trans hcode)
  have hle := h.pos_le
  omega

/-- **Every token that a run passes is read in a step on the way.** -/
theorem exists_step_over (hreach : Reaches r r') {i : Nat} (hle : r.pos ≤ i) (hlt : i < r'.pos) :
    ∃ s, Reaches r s ∧ Reaches s.next r' ∧ s.pos ≤ i ∧ i < s.next.pos := by
  induction hreach with
  | refl r => omega
  | @step r r' hcode rest ih =>
    by_cases hstep : i < r.next.pos
    · exact ⟨r, .refl r, rest, hle, hstep⟩
    · obtain ⟨s, hs, hrest, hle', hlt'⟩ := ih (Nat.le_of_not_lt hstep) hlt
      exact ⟨s, .step hcode hs, hrest, hle', hlt'⟩

/-! ## The descent takes these steps -/

/-- **The descent takes the steps of reading and no others.** -/
theorem Reads.reaches (h : Reads stage r r') : Reaches r r' := by
  induction h with
  | whole hmember _ => exact .step hmember.code_ne_nil (.refl _)
  | opening hmember _ _ ih => exact .step hmember.code_ne_nil ih
  | ended _ => exact .refl _
  | closed hbrace _ _ => exact .step hbrace.code_ne_nil (.refl _)
  | passed hbrace _ _ ih => exact .step hbrace.code_ne_nil ih
  | member _ _ _ ihFirst ihRest => exact ihFirst.trans ihRest

/-- To read a member takes a step at least. -/
theorem Reads.reaches_next (h : Reads .member r r') : r.MeetsMember ∧ Reaches r.next r' := by
  cases h with
  | whole hmember _ => exact ⟨hmember, .refl _⟩
  | opening hmember _ members => exact ⟨hmember, members.reaches⟩

/-- **A member is behind the place where it begins.** -/
theorem Reads.pos_lt (h : Reads .member r r') : r.pos < r'.pos := by
  obtain ⟨hmember, hreach⟩ := h.reaches_next
  exact Nat.lt_of_lt_of_le (pos_lt_pos_next hmember.code_ne_nil) (pos_le_of_reaches hreach)

theorem Reads.length_code_lt (h : Reads .member r r') : r'.code.length < r.code.length := by
  obtain ⟨hmember, hreach⟩ := h.reaches_next
  exact Nat.lt_of_le_of_lt (length_code_le_of_reaches hreach)
    (Reading.length_code_next_lt r hmember.code_ne_nil)

/-! ## It is determined, and it ends -/

/-- **The descent is determined.** By induction on it; the next token and the innermost block tell which rule there
is. -/
theorem Reads.unique {r₁ r₂ : Reading} (h₁ : Reads stage r r₁) (h₂ : Reads stage r r₂) : r₁ = r₂ := by
  induction h₁ generalizing r₂ with
  | whole _ hread =>
    cases h₂ with
    | whole _ _ => rfl
    | opening _ hread' _ => cases hread.symm.trans hread'
  | opening _ hread _ ih =>
    cases h₂ with
    | whole _ hread' => cases hread.symm.trans hread'
    | opening _ _ members => exact ih members
  | ended hcode =>
    cases h₂ with
    | ended _ => rfl
    | closed hbrace _ _ => exact absurd hcode hbrace.code_ne_nil
    | passed hbrace _ _ => exact absurd hcode hbrace.code_ne_nil
    | member hmember _ _ => exact absurd hcode hmember.code_ne_nil
  | closed hbrace houter hclosable =>
    cases h₂ with
    | ended hcode => exact absurd hcode hbrace.code_ne_nil
    | closed _ _ _ => rfl
    | passed _ hopen _ =>
      have hnot := hopen _ (by rw [houter]; rfl)
      exact absurd hclosable (by rw [hnot]; exact Bool.false_ne_true)
    | member hmember _ _ => exact absurd hbrace hmember.not_meetsBrace
  | passed hbrace hopen _ ih =>
    cases h₂ with
    | ended hcode => exact absurd hcode hbrace.code_ne_nil
    | closed _ houter hclosable =>
      have hnot := hopen _ (by rw [houter]; rfl)
      exact absurd hclosable (by rw [hnot]; exact Bool.false_ne_true)
    | passed _ _ rest => exact ih rest
    | member hmember _ _ => exact absurd hbrace hmember.not_meetsBrace
  | member hmember _ _ ihFirst ihRest =>
    cases h₂ with
    | ended hcode => exact absurd hcode hmember.code_ne_nil
    | closed hbrace _ _ => exact absurd hbrace hmember.not_meetsBrace
    | passed hbrace _ _ => exact absurd hbrace hmember.not_meetsBrace
    | member _ first rest =>
      obtain rfl := ihFirst first
      exact ihRest rest

/-- Where the members behind its header come to an end, so does a member. -/
theorem exists_reads_member_of_next (hmember : r.MeetsMember) (hmembers : ∃ r', Reads .members r.next r') :
    ∃ r', Reads .member r r' := by
  cases hread : Member.read r.enclosing r.code with
  | whole declared n => exact ⟨r.next, .whole hmember hread⟩
  | opening kind name header closable =>
    obtain ⟨r', members⟩ := hmembers
    exact ⟨r', .opening hmember hread members⟩

/-- **Members come to an end,** whatever the code: each step and each member leaves less of it. -/
theorem exists_reads_members (r : Reading) : ∃ r', Reads .members r r' := by
  by_cases hcode : r.code = []
  · exact ⟨r, .ended hcode⟩
  · have hnext := Reading.length_code_next_lt r hcode
    obtain ⟨behind, hbehind⟩ := exists_reads_members r.next
    rcases Reading.meetsBrace_or_meetsMember hcode with hbrace | hmember
    · by_cases hopen : ∀ b ∈ r.outer.head?, b.closable = false
      · exact ⟨behind, .passed hbrace hopen hbehind⟩
      · cases houter : r.outer with
        | nil => exact absurd (by simp [houter]) hopen
        | cons b outer =>
          have hclosable : b.closable = true := by simpa [houter] using hopen
          exact ⟨r.next, .closed hbrace houter hclosable⟩
    · obtain ⟨r₁, first⟩ := exists_reads_member_of_next hmember ⟨behind, hbehind⟩
      have hfirst := first.length_code_lt
      obtain ⟨r', rest⟩ := exists_reads_members r₁
      exact ⟨r', .member hmember first rest⟩
termination_by r.code.length

theorem exists_reads_member (hmember : r.MeetsMember) : ∃ r', Reads .member r r' :=
  exists_reads_member_of_next hmember (exists_reads_members r.next)

/-! ## What is open behind it -/

/-- What is open behind a member is what was open before it; the members of a block end with the block. -/
def Stage.Leaves : Stage → List OpenBlock → List OpenBlock → Prop
  | .member, outer, outer' => outer' = outer
  | .members, outer, outer' => ∃ b, b.closable = true ∧ outer = b :: outer'

theorem outer_next_of_closable {b : OpenBlock} {outer : List OpenBlock} (hbrace : r.MeetsBrace)
    (houter : r.outer = b :: outer) (hclosable : b.closable = true) : r.next.outer = outer := by
  obtain ⟨t, rest, hcode, hkind⟩ := hbrace
  rw [next_eq_closeBlock hcode hkind, Reading.closeBlock, houter]
  dsimp only
  rw [if_pos hclosable]
  split <;> rfl

theorem outer_next_of_not_closable (hbrace : r.MeetsBrace)
    (hopen : ∀ b ∈ r.outer.head?, b.closable = false) : r.next.outer = r.outer := by
  obtain ⟨t, rest, hcode, hkind⟩ := hbrace
  rw [next_eq_closeBlock hcode hkind, Reading.closeBlock]
  split
  · next houter => rw [houter]
  · next b outer houter =>
    have hnot : b.closable = false := hopen b (by rw [houter]; rfl)
    rw [hnot, if_neg Bool.false_ne_true]

/-- **What is open behind the descent,** where anything is left to read. -/
theorem Reads.leaves (h : Reads stage r r') : r'.code = [] ∨ stage.Leaves r.outer r'.outer := by
  induction h with
  | whole hmember hread =>
    refine Or.inr ?_
    rw [hmember.next_eq, hread]
    rfl
  | opening hmember hread _ ih =>
    -- the members leave the block that the header opened
    rcases ih with hcode | ⟨b, -, houter⟩
    · exact Or.inl hcode
    · rw [hmember.next_eq, hread] at houter
      exact Or.inr (List.cons.inj houter).2.symm
  | ended hcode => exact Or.inl hcode
  | closed hbrace houter hclosable =>
    exact Or.inr ⟨_, hclosable, houter.trans (by rw [outer_next_of_closable hbrace houter hclosable])⟩
  | passed hbrace hopen _ ih =>
    rw [outer_next_of_not_closable hbrace hopen] at ih
    exact ih
  | @member r r₁ r' _ _ hrest ihFirst ihRest =>
    rcases ihFirst with hcode | houter
    · -- there is nothing left for the other members
      cases hrest with
      | ended _ => exact Or.inl hcode
      | closed hbrace _ _ => exact absurd hcode hbrace.code_ne_nil
      | passed hbrace _ _ => exact absurd hcode hbrace.code_ne_nil
      | member hmember _ _ => exact absurd hcode hmember.code_ne_nil
    · have hsame : r₁.outer = r.outer := houter
      rw [hsame] at ihRest
      exact ihRest

/-- The members of a source end where its reading does. -/
theorem Reads.eq_finish (h : Reads .members r r') (hcode : r'.code = []) : r' = r.finish := by
  rw [finish_eq_of_reaches h.reaches, finish_of_code_eq_nil hcode]

/-! ## From any position -/

/-- Reading comes to an end, and that is where. -/
def ReadsJust (stage : Stage) (r r' : Reading) : Prop := ∀ s, Reads stage r s ↔ s = r'

theorem Reads.just (h : Reads stage r r') : ReadsJust stage r r' := by
  intro s
  constructor
  · exact fun hs => hs.unique h
  · rintro rfl
    exact h

/-- **A member comes to an end behind its first token,** in the block that it stands in unless nothing is left. -/
theorem exists_reads_member_at {outer : List OpenBlock} {done : List OutlineNode} {pos : Nat} {t : Code}
    (ht : code[pos]? = some t) (hkind : t.kind ≠ .braceClose) :
    ∃ r', Reads .member ⟨outer, done, pos, code.drop pos⟩ r' ∧ r'.StandsIn code ∧ pos < r'.pos ∧
      (r'.code = [] ∨ r'.outer = outer) := by
  obtain ⟨hlt, hget⟩ := List.getElem?_eq_some_iff.mp ht
  have hmember : (⟨outer, done, pos, code.drop pos⟩ : Reading).MeetsMember :=
    ⟨t, code.drop (pos + 1), by rw [← hget]; exact List.drop_eq_getElem_cons hlt, hkind⟩
  obtain ⟨r', h⟩ := exists_reads_member hmember
  exact ⟨r', h, standsIn_of_reaches ⟨rfl, by dsimp only; omega⟩ h.reaches, h.pos_lt, h.leaves⟩

/-- **Members come to an end** with the code, or behind the brace that closes the block they stand in. -/
theorem exists_reads_members_at (outer : List OpenBlock) (done : List OutlineNode) {pos : Nat}
    (hpos : pos ≤ code.length + 1) :
    ∃ r', Reads .members ⟨outer, done, pos, code.drop pos⟩ r' ∧ r'.StandsIn code ∧ pos ≤ r'.pos ∧
      ((r'.code = [] ∧ (r'.pos = code.length ∨ r'.pos = code.length + 1)) ∨
        ∃ b, b.closable = true ∧ outer = b :: r'.outer) := by
  obtain ⟨r', h⟩ := exists_reads_members ⟨outer, done, pos, code.drop pos⟩
  have hstands := standsIn_of_reaches ⟨rfl, hpos⟩ h.reaches
  refine ⟨r', h, hstands, pos_le_of_reaches h.reaches, ?_⟩
  exact h.leaves.imp (fun hcode => ⟨hcode, pos_eq_of_code_eq_nil hstands hcode⟩) id

/-- The members of a source end with its code, since no block is open at the start. -/
theorem reads_start (code : List Code) :
    Reads .members (Reading.start code) (Reading.start code).finish ∧
      ((Reading.start code).finish.pos = code.length ∨ (Reading.start code).finish.pos = code.length + 1) := by
  obtain ⟨last, hlast, -, -, hend⟩ := exists_reads_members_at [] [] (Nat.zero_le (code.length + 1))
  obtain ⟨hcode, hpos⟩ := hend.resolve_right (by rintro ⟨b, -, houter⟩; cases houter)
  obtain rfl : last = (Reading.start code).finish := hlast.eq_finish hcode
  exact ⟨hlast, hpos⟩

/-- **Reading makes progress,** whatever the code, the position, the blocks that are open there and what was read
before.

* A member that begins with any token but a closing brace comes to an end behind that token, in the block that it
  stands in unless the code is at its end.
* Members come to an end too: behind the brace that closes their block, or with the code, at its end or one behind it.
* No part of the descent ends before it begins, and the parts of a member end one behind the other.
* The members of a source take it from its first token to its end, and each token is read in a step on the way. -/
theorem reading_progresses (code : List Code) :
    (∀ outer done pos t, code[pos]? = some t → t.kind ≠ .braceClose →
        ∃ r', ReadsJust .member ⟨outer, done, pos, code.drop pos⟩ r' ∧ r'.StandsIn code ∧ pos < r'.pos ∧
          (r'.code = [] ∨ r'.outer = outer)) ∧
      (∀ outer done pos, pos ≤ code.length + 1 →
        ∃ r', ReadsJust .members ⟨outer, done, pos, code.drop pos⟩ r' ∧ r'.StandsIn code ∧ pos ≤ r'.pos ∧
          ((r'.code = [] ∧ (r'.pos = code.length ∨ r'.pos = code.length + 1)) ∨
            ∃ b, b.closable = true ∧ outer = b :: r'.outer)) ∧
      (∀ stage r r', Reads stage r r' → Reaches r r' ∧ r.pos ≤ r'.pos) ∧
      (∀ enclosing pos, let parts := Member.split (code.drop pos)
        parts.attributes ≤ parts.headerEnd ∧
          parts.headerEnd ≤ (Member.read enclosing (code.drop pos)).length ∧
          ∀ declared n, Member.read enclosing (code.drop pos) = .whole declared n → parts.length ≤ n) ∧
      Reads .members (Reading.start code) (Reading.start code).finish ∧
      ((Reading.start code).finish.pos = code.length ∨ (Reading.start code).finish.pos = code.length + 1) ∧
      ∀ i, i < code.length →
        ∃ r, Reaches (Reading.start code) r ∧ Reaches r.next (Reading.start code).finish ∧
          r.code = code.drop r.pos ∧ r.pos ≤ i ∧ i < r.next.pos := by
  obtain ⟨hall, hpos⟩ := reads_start code
  refine ⟨?_, ?_, ?_, fun enclosing pos => Member.parts_le_length enclosing _, hall, hpos, ?_⟩
  · intro outer done pos t ht hkind
    obtain ⟨r', h, hrest⟩ := exists_reads_member_at ht hkind
    exact ⟨r', h.just, hrest⟩
  · intro outer done pos hpos
    obtain ⟨r', h, hrest⟩ := exists_reads_members_at outer done hpos
    exact ⟨r', h.just, hrest⟩
  · exact fun stage r r' h => ⟨h.reaches, pos_le_of_reaches h.reaches⟩
  · intro i hi
    obtain ⟨r, hr, hrest, hle, hlt⟩ := exists_step_over hall.reaches (Nat.zero_le i) (by omega)
    exact ⟨r, hr, hrest, (standsIn_of_reaches ⟨rfl, Nat.zero_le _⟩ hr).code_eq, hle, hlt⟩

/-- A value without a name, a brace that closes nothing, and a type. -/
def namelessValue : Text := "= \x7d class A \x7b \x7d".toList

/-- The value is a member too, the members end with the text, and the word that tells the type is read. -/
theorem reading_progresses_namelessValue :
    let code := codeOf (tokenize namelessValue)
    code.map Code.kind = [.assign, .braceClose, .ident, .ident, .braceOpen, .braceClose] ∧
      (∃ r', ReadsJust .member (Reading.start code) r' ∧ r'.StandsIn code ∧ 0 < r'.pos ∧
        (r'.code = [] ∨ r'.outer = [])) ∧
      (∃ r', ReadsJust .members (Reading.start code) r' ∧ r'.code = [] ∧ (r'.pos = 6 ∨ r'.pos = 7)) ∧
      ∃ r, Reaches (Reading.start code) r ∧ Reaches r.next (Reading.start code).finish ∧
        r.code = code.drop r.pos ∧ r.pos ≤ 2 ∧ 2 < r.next.pos := by
  dsimp only
  have hkinds : (codeOf (tokenize namelessValue)).map Code.kind =
      [.assign, .braceClose, .ident, .ident, .braceOpen, .braceClose] := by decide +kernel
  have hlength : (codeOf (tokenize namelessValue)).length = 6 := by
    rw [← List.length_map Code.kind, hkinds]
    rfl
  obtain ⟨hmember, hmembers, -, -, -, -, hsteps⟩ := reading_progresses (codeOf (tokenize namelessValue))
  refine ⟨hkinds, ?_, ?_, hsteps 2 (by rw [hlength]; decide)⟩
  · exact hmember [] [] 0 ⟨.assign, ['=']⟩ (by decide +kernel) (by decide)
  · obtain ⟨r', hjust, -, -, hend⟩ := hmembers [] [] 0 (Nat.zero_le _)
    rw [hlength] at hend
    exact ⟨r', hjust, hend.resolve_right (by rintro ⟨b, -, houter⟩; cases houter)⟩

end Outline

end Excerpt
