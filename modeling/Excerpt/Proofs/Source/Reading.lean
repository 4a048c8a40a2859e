import Excerpt.Proofs.Source.Member

/-!
# Excerpt — where reading an outline can go

Reading goes from member to member. What it keeps of the code behind it are positions, and they lie within
the code at every step; only the reading position itself can pass the end, by one, where the header of a
namespace runs to the end of the code.

* **`Reaches`** — the readings on the way from one reading to another.
* **`Reading.Sound`** — the invariant: positions lie within the code, and what is read fits it.
* **`sound_next`** — one step keeps the invariant; **`sound_of_reaches`** — so does every run.
* **`lt_pos_next_iff`** — the step with which the reading position passes the end.
* **`read?_eq_none_iff`** — there is no outline just where that happens inside of a type.
* **`fits_of_read?`** — an outline fits the code that it was read from.
-/

namespace Excerpt

/-- All declarations of the node fit `total` tokens. -/
inductive OutlineNode.Fits (total : Nat) : OutlineNode → Prop where
  | node (d : Declared) (members : List OutlineNode) (hd : d.Fits total)
      (hmembers : ∀ n ∈ members, OutlineNode.Fits total n) : OutlineNode.Fits total (.node d members)

namespace Outline

/-- Reading on from the first reading passes the second one. -/
inductive Reaches : Reading → Reading → Prop where
  | refl (r : Reading) : Reaches r r
  | step {r r' : Reading} (hcode : r.code ≠ []) (rest : Reaches r.next r') : Reaches r r'

theorem Reaches.trans {a b c : Reading} (hab : Reaches a b) (hbc : Reaches b c) : Reaches a c := by
  induction hab with
  | refl r => exact hbc
  | step hcode _ ih => exact .step hcode (ih hbc)

/-- Where no closing brace follows, a member is read. -/
theorem next_eq_takeMember {r : Reading} {t : Code} {rest : List Code} (hcode : r.code = t :: rest)
    (hkind : t.kind ≠ .braceClose) : r.next = r.takeMember (Member.read r.enclosing r.code) := by
  unfold Reading.next
  rw [hcode]
  exact if_neg hkind

theorem next_eq_closeBlock {r : Reading} {t : Code} {rest : List Code} (hcode : r.code = t :: rest)
    (hkind : t.kind = .braceClose) : r.next = r.closeBlock rest := by
  unfold Reading.next
  rw [hcode]
  exact if_pos hkind

theorem finish_of_code_eq_nil {r : Reading} (h : r.code = []) : r.finish = r := by
  rw [Reading.finish, dif_pos h]

theorem finish_next {r : Reading} (h : r.code ≠ []) : r.finish = r.next.finish := by
  rw [Reading.finish, dif_neg h]

/-- Reading on ends where it does from any reading on the way. -/
theorem finish_eq_of_reaches {r r' : Reading} (h : Reaches r r') : r.finish = r'.finish := by
  induction h with
  | refl r => rfl
  | step hcode _ ih => rw [finish_next hcode, ih]

/-! ## The invariant -/

/-- The block was opened before position `pos` of `total` tokens. -/
structure OpenBlock.Sound (total pos : Nat) (b : OpenBlock) : Prop where
  first_le : b.first ≤ b.header
  first_lt : b.first < total
  header_lt : b.header < pos
  before : ∀ n ∈ b.before, n.Fits total

/-- What is left to read is the code from the reading position on, and all other positions lie within the
code. -/
structure Reading.Sound (code : List Code) (r : Reading) : Prop where
  code_eq : r.code = code.drop r.pos
  pos_le : r.pos ≤ code.length + 1
  blocks : ∀ b ∈ r.outer, b.Sound code.length r.pos
  done : ∀ n ∈ r.done, n.Fits code.length

theorem OpenBlock.Sound.mono {total pos pos' : Nat} {b : OpenBlock} (h : b.Sound total pos)
    (hle : pos ≤ pos') : b.Sound total pos' :=
  ⟨h.first_le, h.first_lt, Nat.lt_of_lt_of_le h.header_lt hle, h.before⟩

theorem sound_start (code : List Code) : (Reading.start code).Sound code :=
  ⟨rfl, Nat.zero_le _, by simp [Reading.start], by simp [Reading.start]⟩

theorem fits_close {total pos closing last : Nat} {b : OpenBlock} {members : List OutlineNode}
    (h : b.Sound total pos) (hfirst : b.first ≤ last) (hclosing : closing ≤ last) (hlast : last < total)
    (hmembers : ∀ n ∈ members, n.Fits total) : ∀ n ∈ b.close closing last members, n.Fits total := by
  refine List.forall_mem_cons.mpr ⟨.node _ _ ⟨hfirst, hlast, ?_⟩ ?_, h.before⟩
  · intro body hbody
    dsimp only at hbody
    split at hbody
    · exact BodyExtent.within_of_between? hbody h.first_le hclosing
    · exact absurd hbody (by simp)
  · intro n hn
    exact hmembers n (List.mem_reverse.mp hn)

variable {code : List Code} {r : Reading}

theorem length_code_eq (h : r.Sound code) : r.code.length = code.length - r.pos := by
  rw [h.code_eq, List.length_drop]

theorem pos_lt_of_code_ne_nil (h : r.Sound code) (hcode : r.code ≠ []) : r.pos < code.length := by
  have hlength := length_code_eq h
  have hpos := List.length_pos_iff.mpr hcode
  omega

theorem drop_of_code_eq_cons (h : r.Sound code) {t : Code} {rest : List Code}
    (hcode : r.code = t :: rest) (n : Nat) : code.drop (r.pos + 1 + n) = rest.drop n := by
  have hrest : code.drop (r.pos + 1) = rest := by
    rw [← List.drop_drop, ← h.code_eq, hcode, List.drop_succ_cons, List.drop_zero]
  rw [← List.drop_drop, hrest]

theorem sound_closeBlock (h : r.Sound code) {t : Code} {rest : List Code}
    (hcode : r.code = t :: rest) : (r.closeBlock rest).Sound code := by
  have hpos := pos_lt_of_code_ne_nil h (by rw [hcode]; simp)
  have hrest : rest = code.drop (r.pos + 1) := (drop_of_code_eq_cons h hcode 0).symm
  unfold Reading.closeBlock
  split
  · exact ⟨hrest, by dsimp only; omega, by simp, h.done⟩
  · next b surrounding houter =>
    have hb : b.Sound code.length r.pos := h.blocks b (by rw [houter]; exact List.mem_cons_self)
    have hfirst := hb.first_le
    have hheader := hb.header_lt
    have hsurrounding : ∀ b' ∈ surrounding, b'.Sound code.length r.pos :=
      fun b' hb' => h.blocks b' (by rw [houter]; exact List.mem_cons_of_mem b hb')
    split
    · split
      · next hsemicolon =>
        -- the semicolon is the token at the next position
        have hlt : r.pos + 1 < code.length := by
          have hne : rest ≠ [] := by
            rintro rfl
            simp at hsemicolon
          have hlength := List.length_pos_iff.mpr hne
          rw [hrest, List.length_drop] at hlength
          omega
        refine ⟨?_, by dsimp only; omega, fun b' hb' => (hsurrounding b' hb').mono (by dsimp only; omega), ?_⟩
        · rw [← List.drop_one, ← drop_of_code_eq_cons h hcode 1]
        · exact fits_close hb (by omega) (by omega) hlt h.done
      · refine ⟨hrest, by dsimp only; omega, fun b' hb' => (hsurrounding b' hb').mono (by dsimp only; omega), ?_⟩
        exact fits_close hb (by omega) (by omega) hpos h.done
    · exact ⟨hrest, by dsimp only; omega, fun b' hb' => (h.blocks b' hb').mono (by dsimp only; omega), h.done⟩

theorem sound_takeMember (h : r.Sound code) (hcode : r.code ≠ []) {m : Member}
    (hm : m.Fits r.code.length) : (r.takeMember m).Sound code := by
  have hpos := pos_lt_of_code_ne_nil h hcode
  have hlength := length_code_eq h
  have hdrop : ∀ n, r.code.drop n = code.drop (r.pos + n) := by
    intro n
    rw [h.code_eq, List.drop_drop]
  cases m with
  | whole declared n =>
    obtain ⟨hn, hfits⟩ := hm
    refine ⟨hdrop n, by dsimp only [Reading.takeMember]; omega, ?_, ?_⟩
    · intro b hb
      exact (h.blocks b hb).mono (Nat.le_add_right _ _)
    · intro node hnode
      rcases List.mem_append.mp hnode with hnew | hold
      · obtain ⟨d, hd, rfl⟩ := List.mem_map.mp hnew
        have hd := hfits d (Option.mem_toList.mp hd)
        exact .node _ [] (hd.at r.pos (by omega)) (by simp)
      · exact h.done node hold
  | opening kind name header closable =>
    obtain ⟨hheader, -⟩ := hm
    refine ⟨hdrop (header + 1), by dsimp only [Reading.takeMember]; omega, ?_, by simp [Reading.takeMember]⟩
    refine List.forall_mem_cons.mpr ⟨⟨?_, hpos, ?_, h.done⟩, ?_⟩
    · exact Nat.le_add_right _ _
    · exact Nat.lt_succ_self _
    · intro b hb
      exact (h.blocks b hb).mono (by dsimp only [Reading.takeMember]; omega)

/-- **One step keeps the invariant.** -/
theorem sound_next (h : r.Sound code) : r.next.Sound code := by
  unfold Reading.next
  split
  · exact h
  · next t rest hcode =>
    split
    · exact sound_closeBlock h hcode
    · next hkind =>
      refine sound_takeMember h (by rw [hcode]; simp) ?_
      rw [hcode]
      exact Member.read_fits r.enclosing rest hkind

/-- **Every run keeps the invariant.** -/
theorem sound_of_reaches {r' : Reading} (h : r.Sound code) (hreach : Reaches r r') :
    r'.Sound code := by
  induction hreach with
  | refl r => exact h
  | step _ _ ih => exact ih (sound_next h)

/-! ## The end of the code -/

/-- What is left of the code is a header that no token ends, with the word that tells a namespace. -/
structure Reading.Overruns (r : Reading) : Prop where
  word : (Header.findWord? ["namespace".toList] (Member.split r.code).header).isSome
  unended : (Member.split r.code).tail = []

theorem findWord?_nil (words : List Text) : Header.findWord? words [] = none := rfl

theorem Reading.Overruns.header_ne_nil (h : r.Overruns) : (Member.split r.code).header ≠ [] := by
  intro hnil
  have hword := h.word
  rw [hnil, findWord?_nil] at hword
  exact Bool.noConfusion hword

theorem Reading.Overruns.code_ne_nil (h : r.Overruns) : r.code ≠ [] := by
  intro hnil
  refine h.header_ne_nil (List.eq_nil_of_length_eq_zero ?_)
  rw [hnil, Member.length_split_header, List.drop_nil]
  rfl

/-- It does not begin with a closing brace, which would end it. -/
theorem Reading.Overruns.kind_ne_braceClose (h : r.Overruns) {t : Code} {rest : List Code}
    (hcode : r.code = t :: rest) : t.kind ≠ .braceClose := by
  intro hkind
  refine h.header_ne_nil ?_
  have hattributes : Member.attributesLength (t :: rest) = 0 := by
    unfold Member.attributesLength
    simp [hkind]
  have hmeasure : (Header.measure 0 (t :: rest)).1 = 0 := by
    simp [Header.measure, hkind, HeaderEnd.ofKind?]
  rw [hcode]
  refine List.eq_nil_of_length_eq_zero ?_
  rw [Member.length_split_header, hattributes, List.drop_zero, hmeasure]

/-- What is read at such a header is a namespace that ends with the text. -/
theorem Reading.Overruns.next_eq (h : r.Overruns) :
    ∃ name, r.next = r.takeMember (.opening .namespace name r.code.length false) := by
  obtain ⟨kind, name, closable, hread⟩ :=
    (Member.read_overruns_iff r.enclosing r.code).mpr ⟨h.word, h.unended⟩
  cases hcode : r.code with
  | nil => exact absurd hcode h.code_ne_nil
  | cons t rest =>
    have hkind := h.kind_ne_braceClose hcode
    have hfits := Member.read_fits r.enclosing rest hkind
    rw [← hcode, hread] at hfits
    -- a block that is no such namespace has a token behind its header
    have hlt : kind ≠ .namespace ∨ closable = true → r.code.length < r.code.length := hfits.2
    obtain rfl : kind = .namespace :=
      Decidable.byContradiction fun hne => Nat.lt_irrefl _ (hlt (Or.inl hne))
    obtain rfl : closable = false :=
      Bool.eq_false_iff.mpr fun hclosable => Nat.lt_irrefl _ (hlt (Or.inr hclosable))
    rw [next_eq_takeMember hcode hkind, hread, hcode]
    exact ⟨name, rfl⟩

/-- Reading a closing brace moves the position as far as it shortens the code. -/
theorem pos_closeBlock (r : Reading) (rest : List Code) :
    (r.closeBlock rest).pos + (r.closeBlock rest).code.length = r.pos + 1 + rest.length := by
  unfold Reading.closeBlock
  repeat' split
  all_goals try rfl
  next hsemicolon =>
    cases rest with
    | nil => simp at hsemicolon
    | cons t rest =>
      simp only [List.tail_cons, List.length_cons]
      omega

/-- **The reading position passes the end of the code in the step that reads such a header.** -/
theorem lt_pos_next_iff (h : r.Sound code) (hcode : r.code ≠ []) :
    code.length < r.next.pos ↔ r.Overruns := by
  have hpos := pos_lt_of_code_ne_nil h hcode
  have hlength := length_code_eq h
  constructor
  · intro hlt
    unfold Reading.next at hlt
    split at hlt
    · next hnil => exact absurd hnil hcode
    · next t rest hcons =>
      rw [hcons, List.length_cons] at hlength
      split at hlt
      · have hmoved := pos_closeBlock r rest
        omega
      · next hkind =>
        have hfits := Member.read_fits r.enclosing rest hkind
        cases hread : Member.read r.enclosing (t :: rest) with
        | whole declared n =>
          rw [hread] at hfits hlt
          have hn : n ≤ rest.length + 1 := hfits.1
          have hle : code.length < r.pos + n := hlt
          omega
        | opening kind name header closable =>
          rw [hread] at hfits hlt
          have hheader : header ≤ rest.length + 1 := hfits.1
          have hle : code.length < r.pos + header + 1 := hlt
          have hall : header = (t :: rest).length := by
            rw [List.length_cons]
            omega
          rw [hall] at hread
          obtain ⟨hword, htail⟩ := (Member.read_overruns_iff r.enclosing _).mp ⟨_, _, _, hread⟩
          rw [← hcons] at hword htail
          exact ⟨hword, htail⟩
  · intro hoverruns
    obtain ⟨name, hnext⟩ := hoverruns.next_eq
    rw [hnext]
    show code.length < r.pos + r.code.length + 1
    omega

/-- Where the reading position has passed the end, the last step read such a header. -/
theorem exists_overruns_of_lt_pos_finish (h : r.Sound code) (hle : r.pos ≤ code.length)
    (hlt : code.length < r.finish.pos) :
    ∃ r', Reaches r r' ∧ r'.Overruns ∧ r.finish = r'.next := by
  fun_induction Reading.finish r with
  | case1 r hnil => omega
  | case2 r hcode ih =>
    by_cases hpos : r.next.pos ≤ code.length
    · obtain ⟨r', hreach, hoverruns, hnext⟩ := ih (sound_next h) hpos hlt
      exact ⟨r', .step hcode hreach, hoverruns, hnext⟩
    · have hnil : r.next.code = [] := by
        refine List.eq_nil_of_length_eq_zero ?_
        have hlength := length_code_eq (sound_next h)
        omega
      exact ⟨r, .refl r, (lt_pos_next_iff h hcode).mp (by omega), finish_of_code_eq_nil hnil⟩

/-! ## Outlines -/

/-- Only a type cannot be closed behind the end of the code. -/
theorem closeAll_eq_none_iff {last : Nat} {overrun : Bool} {outer : List OpenBlock}
    {done : List OutlineNode} :
    closeAll last overrun outer done = none ↔ overrun = true ∧ ∃ b ∈ outer, b.kind = .type := by
  induction outer generalizing done with
  | nil => simp [closeAll]
  | cons b outer ih =>
    unfold closeAll
    split
    · next h =>
      have hb : b.kind = .type ∧ overrun = true := by simpa using h
      exact ⟨fun _ => ⟨hb.2, b, List.mem_cons_self, hb.1⟩, fun _ => rfl⟩
    · next h =>
      rw [ih]
      constructor
      · rintro ⟨hoverrun, b', hb', hkind⟩
        exact ⟨hoverrun, b', List.mem_cons_of_mem b hb', hkind⟩
      · rintro ⟨hoverrun, b', hb', hkind⟩
        rcases List.mem_cons.mp hb' with rfl | hmem
        · exact absurd (by simp [hkind, hoverrun]) h
        · exact ⟨hoverrun, b', hmem, hkind⟩

theorem reaches_finish (r : Reading) : Reaches r r.finish := by
  fun_induction Reading.finish r with
  | case1 r _ => exact .refl r
  | case2 r hcode ih => exact .step hcode ih

/-- **There is no outline just where the header of a namespace runs to the end of the code inside of a
type.** -/
theorem read?_eq_none_iff (code : List Code) :
    read? code = none ↔
      ∃ r, Reaches (Reading.start code) r ∧ r.Overruns ∧ ∃ b ∈ r.outer, b.kind = .type := by
  have hsound := sound_start code
  unfold read?
  dsimp only
  rw [closeAll_eq_none_iff, decide_eq_true_iff]
  constructor
  · rintro ⟨hlt, b, hb, hkind⟩
    obtain ⟨r, hreach, hoverruns, hnext⟩ :=
      exists_overruns_of_lt_pos_finish hsound (Nat.zero_le _) hlt
    obtain ⟨name, hnamespace⟩ := hoverruns.next_eq
    rw [hnext, hnamespace] at hb
    refine ⟨r, hreach, hoverruns, ?_⟩
    rcases List.mem_cons.mp hb with rfl | hmem
    · exact absurd hkind (by simp)
    · exact ⟨b, hmem, hkind⟩
  · rintro ⟨r, hreach, hoverruns, b, hb, hkind⟩
    have hr := sound_of_reaches hsound hreach
    have hlt := (lt_pos_next_iff hr hoverruns.code_ne_nil).mpr hoverruns
    obtain ⟨name, hnext⟩ := hoverruns.next_eq
    have hnil : r.next.code = [] := by
      rw [hnext]
      show r.code.drop (r.code.length + 1) = []
      exact List.drop_eq_nil_of_le (Nat.le_succ _)
    have hfinish : (Reading.start code).finish = r.next := by
      rw [finish_eq_of_reaches hreach, finish_next hoverruns.code_ne_nil, finish_of_code_eq_nil hnil]
    rw [hfinish]
    refine ⟨hlt, b, ?_, hkind⟩
    rw [hnext]
    exact List.mem_cons_of_mem _ hb

theorem fits_closeAll {total pos : Nat} {overrun : Bool} {outer : List OpenBlock}
    {done nodes : List OutlineNode} (houter : ∀ b ∈ outer, b.Sound total pos)
    (hdone : ∀ n ∈ done, n.Fits total) (h : closeAll (total - 1) overrun outer done = some nodes) :
    ∀ n ∈ nodes, n.Fits total := by
  induction outer generalizing done with
  | nil =>
    obtain rfl := Option.some.inj h
    intro n hn
    exact hdone n (List.mem_reverse.mp hn)
  | cons b outer ih =>
    have hb := houter b List.mem_cons_self
    have hlt := hb.first_lt
    unfold closeAll at h
    split at h
    · exact absurd h (by simp)
    · refine ih (fun b' hb' => houter b' (List.mem_cons_of_mem b hb')) ?_ h
      exact fits_close hb (by omega) (by omega) (by omega) hdone

/-- **An outline fits the code that it was read from.** -/
theorem fits_of_read? {nodes : List OutlineNode} (h : read? code = some nodes) :
    ∀ n ∈ nodes, n.Fits code.length := by
  have hsound := sound_of_reaches (sound_start code) (reaches_finish _)
  exact fits_closeAll hsound.blocks hsound.done h

end Outline

/-! ## Entries -/

namespace OutlineNode

mutual

theorem length_entries (parent : Option Nat) (index : Nat) (n : OutlineNode) :
    (entries parent index n).length = size n := by
  cases n with
  | node d members =>
    unfold entries size
    rw [List.length_cons, length_entriesAll (some index) (index + 1) members]

theorem length_entriesAll (parent : Option Nat) (index : Nat) (nodes : List OutlineNode) :
    (entriesAll parent index nodes).length = sizeAll nodes := by
  cases nodes with
  | nil => rfl
  | cons n rest =>
    unfold entriesAll sizeAll
    rw [List.length_append, length_entries parent index n,
      length_entriesAll parent (index + size n) rest]

end

mutual

theorem fits_of_mem_entries {total : Nat} {parent : Option Nat} {index : Nat} {n : OutlineNode}
    (h : n.Fits total) {e : OutlineEntry} (he : e ∈ entries parent index n) :
    e.declared.Fits total := by
  cases n with
  | node d members =>
    cases h with
    | node _ _ hd hmembers =>
      unfold entries at he
      rcases List.mem_cons.mp he with rfl | hmem
      · exact hd
      · exact fits_of_mem_entriesAll hmembers hmem

theorem fits_of_mem_entriesAll {total : Nat} {parent : Option Nat} {index : Nat}
    {nodes : List OutlineNode} (h : ∀ n ∈ nodes, n.Fits total) {e : OutlineEntry}
    (he : e ∈ entriesAll parent index nodes) : e.declared.Fits total := by
  cases nodes with
  | nil => simp [entriesAll] at he
  | cons n rest =>
    unfold entriesAll at he
    rcases List.mem_append.mp he with hmem | hmem
    · exact fits_of_mem_entries (h n List.mem_cons_self) hmem
    · exact fits_of_mem_entriesAll (fun m hm => h m (List.mem_cons_of_mem n hm)) hmem

end

mutual

/-- A declaration stands behind the one that contains it. -/
theorem parent_lt_of_getElem?_entries {parent : Option Nat} {index : Nat} {n : OutlineNode}
    (hparent : ∀ p ∈ parent, p < index) {i : Nat} {e : OutlineEntry}
    (he : (entries parent index n)[i]? = some e) : ∀ p ∈ e.parent, p < index + i := by
  cases n with
  | node d members =>
    unfold entries at he
    cases i with
    | zero =>
      obtain rfl : ⟨d, parent⟩ = e := by simpa using he
      exact hparent
    | succ i =>
      rw [List.getElem?_cons_succ] at he
      have hinner : ∀ p ∈ e.parent, p < index + 1 + i :=
        parent_lt_of_getElem?_entriesAll (by simp) he
      intro p hp
      have hlt := hinner p hp
      omega

theorem parent_lt_of_getElem?_entriesAll {parent : Option Nat} {index : Nat}
    {nodes : List OutlineNode} (hparent : ∀ p ∈ parent, p < index) {i : Nat} {e : OutlineEntry}
    (he : (entriesAll parent index nodes)[i]? = some e) : ∀ p ∈ e.parent, p < index + i := by
  cases nodes with
  | nil => simp [entriesAll] at he
  | cons n rest =>
    unfold entriesAll at he
    rw [List.getElem?_append, length_entries] at he
    split at he
    · exact parent_lt_of_getElem?_entries hparent he
    · next hle =>
      have hinner : ∀ p ∈ e.parent, p < index + size n + (i - size n) :=
        parent_lt_of_getElem?_entriesAll
          (fun p hp => Nat.lt_of_lt_of_le (hparent p hp) (Nat.le_add_right _ _)) he
      intro p hp
      have hlt := hinner p hp
      omega

end

end OutlineNode

end Excerpt
