import Excerpt.Proofs.Source.Reading
import Mathlib.Logic.Relation

/-!
# Excerpt — the order of an outline

Each declaration takes a run of the code, from its first token to its last one. Of two declarations, either
the one contains the other, or its run ends before that of the other begins.

* **`OutlineNode.Ordered`** — the declarations of some nodes stand one behind the other, and each contains
  its members behind its first token.
* **`Outline.OrderedBefore`** — the invariant of reading; **`orderedBefore_next`** keeps it, and
  **`ordered_of_read?`** is what it comes to at the end.
* **`Outline.Surrounds`** — one entry of an outline contains another one, directly or through others.
* **`surrounds_or_last_lt`**, **`first_lt_and_last_le_of_surrounds`** — where two entries of an ordered
  outline stand.
-/

namespace Excerpt

/-- The kinds of declarations that can contain others. -/
def DeclarationKind.IsContainer (kind : DeclarationKind) : Prop := kind = .namespace ∨ kind = .type

/-- The declarations of the nodes take tokens from position `lo` up to and without `hi`, one behind the
other, and the members of each stand within it behind its first token. -/
inductive OutlineNode.Ordered : (lo hi : Nat) → List OutlineNode → Prop where
  | nil {lo hi : Nat} (hle : lo ≤ hi) : Ordered lo hi []
  | cons {lo hi : Nat} {d : Declared} {members rest : List OutlineNode} (hlo : lo ≤ d.first)
      (hmembers : Ordered (d.first + 1) (d.last + 1) members)
      (hkind : members ≠ [] → d.kind.IsContainer)
      (hrest : Ordered (d.last + 1) hi rest) : Ordered lo hi (.node d members :: rest)

namespace OutlineNode.Ordered

theorem le {lo hi : Nat} {nodes : List OutlineNode} (h : Ordered lo hi nodes) : lo ≤ hi := by
  induction h with
  | nil hle => exact hle
  | cons hlo _ _ _ ihmembers ihrest => omega

theorem mono {lo hi hi' : Nat} {nodes : List OutlineNode} (h : Ordered lo hi nodes)
    (hhi : hi ≤ hi') : Ordered lo hi' nodes := by
  induction h with
  | nil hle => exact nil (Nat.le_trans hle hhi)
  | cons hlo hmembers hkind _ _ ihrest => exact cons hlo hmembers hkind (ihrest hhi)

theorem append {lo mid hi : Nat} {front back : List OutlineNode} (hfront : Ordered lo mid front)
    (hback : Ordered mid hi back) : Ordered lo hi (front ++ back) := by
  induction hfront with
  | nil hle =>
    cases hback with
    | nil hle' => exact nil (Nat.le_trans hle hle')
    | cons hlo hmembers hkind hrest => exact cons (Nat.le_trans hle hlo) hmembers hkind hrest
  | cons hlo hmembers hkind _ _ ihrest => exact cons hlo hmembers hkind (ihrest hback)

/-- A single node. -/
theorem single {lo hi : Nat} {d : Declared} {members : List OutlineNode} (hlo : lo ≤ d.first)
    (hhi : d.last < hi) (hmembers : Ordered (d.first + 1) (d.last + 1) members)
    (hkind : members ≠ [] → d.kind.IsContainer) : Ordered lo hi [.node d members] :=
  cons hlo hmembers hkind (nil hhi)

end OutlineNode.Ordered

/-! ## Reading keeps the order -/

namespace Outline

open OutlineNode (Ordered)

/-- What was read stands in order before position `pos`: the declarations in each open block behind its
first token, and those before the block in front of it. -/
def OrderedBefore (pos : Nat) : List OpenBlock → List OutlineNode → Prop
  | [], done => Ordered 0 pos done.reverse
  | b :: outer, done =>
    Ordered (b.first + 1) pos done.reverse ∧ b.kind.IsContainer ∧ OrderedBefore b.first outer b.before

theorem OrderedBefore.mono {pos pos' : Nat} {outer : List OpenBlock} {done : List OutlineNode}
    (h : OrderedBefore pos outer done) (hle : pos ≤ pos') : OrderedBefore pos' outer done := by
  cases outer with
  | nil => exact Ordered.mono h hle
  | cons b outer => exact ⟨h.1.mono hle, h.2⟩

/-- One more declaration, without members. -/
theorem OrderedBefore.push {pos pos' : Nat} {outer : List OpenBlock} {done : List OutlineNode}
    (h : OrderedBefore pos outer done) {node : OutlineNode} (hnode : Ordered pos pos' [node]) :
    OrderedBefore pos' outer (node :: done) := by
  cases outer with
  | nil =>
    show Ordered 0 pos' (node :: done).reverse
    rw [List.reverse_cons]
    exact Ordered.append h hnode
  | cons b outer =>
    refine ⟨?_, h.2⟩
    rw [List.reverse_cons]
    exact h.1.append hnode

/-- The innermost block is closed with the token before position `pos`, or with a later one. -/
theorem OrderedBefore.close {pos closing last : Nat} {b : OpenBlock} {outer : List OpenBlock}
    {done : List OutlineNode} (h : OrderedBefore pos (b :: outer) done) (hlast : pos ≤ last + 1) :
    OrderedBefore (last + 1) outer (b.close closing last done) := by
  obtain ⟨hdone, hkind, hbefore⟩ := h
  have hle := hdone.le
  exact hbefore.push (.single (Nat.le_refl _) (Nat.lt_succ_self _) (hdone.mono hlast) fun _ => hkind)

/-- A block is opened at position `pos`. -/
theorem OrderedBefore.open {pos pos' : Nat} {outer : List OpenBlock} {done : List OutlineNode}
    (h : OrderedBefore pos outer done) (hlt : pos < pos') {kind : DeclarationKind}
    (hkind : kind.IsContainer) (name : Text) (header : Nat) (closable : Bool) :
    OrderedBefore pos' (⟨kind, name, pos, header, closable, done⟩ :: outer) [] :=
  ⟨.nil hlt, hkind, h⟩

end Outline

/-- Only namespaces and types are opened. -/
theorem Member.isContainer_of_read_eq_opening {enclosing : Option Enclosing} {code : List Code}
    {kind : DeclarationKind} {name : Text} {header : Nat} {closable : Bool}
    (h : read enclosing code = .opening kind name header closable) : kind.IsContainer := by
  rcases read_shape enclosing code with ⟨place, -, hread⟩ | ⟨-, ⟨place, typeName, hread⟩ | hrest⟩
  · rw [hread] at h
    exact Or.inl (opening.inj h).1.symm
  · rw [hread] at h
    unfold Parts.asType at h
    split at h
    · cases h
    · split at h
      · cases h
      · exact Or.inr (opening.inj h).1.symm
  · rcases hrest with hread | ⟨typeName, hread⟩ | hread | hread
    all_goals
      rw [hread] at h
      cases h

namespace Outline

open OutlineNode (Ordered)

variable {code : List Code} {r : Reading}

/-- What the reading has behind it, up to its position but not behind the end of the code. -/
def Reading.Ordered (code : List Code) (r : Reading) : Prop :=
  OrderedBefore (min r.pos code.length) r.outer r.done

theorem ordered_start (code : List Code) : (Reading.start code).Ordered code :=
  .nil (Nat.zero_le _)

theorem ordered_closeBlock (h : r.Sound code) (ho : r.Ordered code) {t : Code} {rest : List Code}
    (hcode : r.code = t :: rest) : (r.closeBlock rest).Ordered code := by
  have hpos := pos_lt_of_code_ne_nil h (by rw [hcode]; simp)
  have hnow : OrderedBefore r.pos r.outer r.done := by
    rwa [Reading.Ordered, Nat.min_eq_left (Nat.le_of_lt hpos)] at ho
  unfold Reading.closeBlock Reading.Ordered
  split
  · next houter =>
    rw [houter] at hnow
    exact hnow.mono (by dsimp only; omega)
  · next b surrounding houter =>
    rw [houter] at hnow
    split
    · split
      · next hsemicolon =>
        -- the semicolon is the token at the next position
        have hlength := length_code_eq h
        have hne : rest ≠ [] := by
          rintro rfl
          simp at hsemicolon
        have hrest := List.length_pos_iff.mpr hne
        rw [hcode, List.length_cons] at hlength
        exact (hnow.close (by omega)).mono (by dsimp only; omega)
      · exact (hnow.close (by omega)).mono (by dsimp only; omega)
    · rw [houter]
      exact hnow.mono (by dsimp only; omega)

theorem ordered_takeMember (h : r.Sound code) (ho : r.Ordered code) (hcode : r.code ≠ [])
    {m : Member} (hm : m.Fits r.code.length)
    (hkind : ∀ kind name header closable, m = .opening kind name header closable → kind.IsContainer) :
    (r.takeMember m).Ordered code := by
  have hpos := pos_lt_of_code_ne_nil h hcode
  have hlength := length_code_eq h
  have hnow : OrderedBefore r.pos r.outer r.done := by
    rwa [Reading.Ordered, Nat.min_eq_left (Nat.le_of_lt hpos)] at ho
  unfold Reading.Ordered
  cases m with
  | whole declared n =>
    obtain ⟨hn, hfits⟩ := hm
    cases declared with
    | none => exact hnow.mono (by dsimp only [Reading.takeMember]; omega)
    | some d =>
      have hd := hfits d rfl
      have hordered := hd.ordered
      have hlt := hd.lt
      refine hnow.push (.single (Nat.le_refl _) ?_ (.nil ?_) (fun hne => absurd rfl hne))
      · dsimp only [Reading.takeMember]
        omega
      · dsimp only
        omega
  | opening kind name header closable =>
    exact hnow.open (by dsimp only [Reading.takeMember]; omega) (hkind _ _ _ _ rfl) _ _ _

/-- **One step keeps the order.** -/
theorem ordered_next (h : r.Sound code) (ho : r.Ordered code) : r.next.Ordered code := by
  unfold Reading.next
  split
  · exact ho
  · next t rest hcode =>
    split
    · exact ordered_closeBlock h ho hcode
    · next hkind =>
      have hfits := Member.read_fits r.enclosing rest hkind
      rw [← hcode] at hfits
      exact ordered_takeMember h ho (by rw [hcode]; simp) (by rwa [← hcode])
        fun _ _ _ _ hread => Member.isContainer_of_read_eq_opening hread

/-- **Every run keeps the order.** -/
theorem ordered_of_reaches {r' : Reading} (h : r.Sound code) (ho : r.Ordered code)
    (hreach : Reaches r r') : r'.Ordered code := by
  induction hreach with
  | refl r => exact ho
  | step _ _ ih => exact ih (sound_next h) (ordered_next h ho)

theorem ordered_closeAll {total pos : Nat} {overrun : Bool} {outer : List OpenBlock}
    {done nodes : List OutlineNode} (ho : OrderedBefore pos outer done) (hpos : pos ≤ total)
    (h : closeAll (total - 1) overrun outer done = some nodes) : Ordered 0 total nodes := by
  induction outer generalizing done pos with
  | nil =>
    obtain rfl := Option.some.inj h
    exact Ordered.mono ho hpos
  | cons b outer ih =>
    have hle := ho.1.le
    unfold closeAll at h
    split at h
    · exact absurd h (by simp)
    · exact ih (ho.close (by omega)) (by omega) h

/-- **An outline is in the order of the code that it was read from.** -/
theorem ordered_of_read? {nodes : List OutlineNode} (h : read? code = some nodes) :
    Ordered 0 code.length nodes := by
  have ho := ordered_of_reaches (sound_start code) (ordered_start code) (reaches_finish _)
  exact ordered_closeAll ho (Nat.min_le_right _ _) h

end Outline

/-! ## Entries -/

namespace Outline

/-- The entry at the first index is named as its container by the one at the second index. -/
def Contains (entries : List OutlineEntry) (i j : Nat) : Prop :=
  ∃ e ∈ entries[j]?, e.parent = some i

/-- The entry at the first index contains the one at the second index, directly or through others. -/
def Surrounds (entries : List OutlineEntry) : Nat → Nat → Prop := Relation.TransGen (Contains entries)

/-- The list has the entries of `part` from an index on. -/
def HasAt (entries : List OutlineEntry) (index : Nat) (part : List OutlineEntry) : Prop :=
  ∀ (k : Nat) (e : OutlineEntry), part[k]? = some e → entries[index + k]? = some e

namespace HasAt

variable {entries front back : List OutlineEntry} {index : Nat} {e : OutlineEntry}

theorem left (h : HasAt entries index (front ++ back)) : HasAt entries index front := by
  intro k e hk
  refine h k e ?_
  obtain ⟨hlt, -⟩ := List.getElem?_eq_some_iff.mp hk
  rw [List.getElem?_append_left hlt, hk]

theorem right (h : HasAt entries index (front ++ back)) :
    HasAt entries (index + front.length) back := by
  intro k e hk
  rw [Nat.add_assoc]
  refine h (front.length + k) e ?_
  rw [List.getElem?_append_right (Nat.le_add_right _ _), Nat.add_sub_cancel_left, hk]

theorem tail (h : HasAt entries index (e :: back)) : HasAt entries (index + 1) back := by
  rw [← List.singleton_append] at h
  exact h.right

end HasAt

end Outline

namespace OutlineNode

open Outline (Contains Surrounds HasAt)

theorem entriesAll_cons (parent : Option Nat) (index : Nat) (d : Declared)
    (members rest : List OutlineNode) :
    entriesAll parent index (.node d members :: rest) =
      ⟨d, parent⟩ :: (entriesAll (some index) (index + 1) members ++
        entriesAll parent (index + 1 + sizeAll members) rest) := by
  rw [entriesAll, entries, size, List.cons_append,
    show index + (sizeAll members + 1) = index + 1 + sizeAll members from by omega]

variable {entries : List OutlineEntry}

/-- All entries of some nodes are surrounded by that which is named as their container. -/
theorem surrounds_entriesAll {lo hi : Nat} {nodes : List OutlineNode} (ho : Ordered lo hi nodes)
    {p index : Nat} (h : HasAt entries index (entriesAll (some p) index nodes)) {k : Nat}
    (hk : k < sizeAll nodes) : Surrounds entries p (index + k) := by
  induction ho generalizing p index k with
  | nil => exact absurd hk (Nat.not_lt_zero k)
  | @cons _ _ d members rest _ _ _ _ ihmembers ihrest =>
    rw [entriesAll_cons] at h
    have hfirst : Contains entries p index := ⟨_, h 0 ⟨d, some p⟩ rfl, rfl⟩
    have hright := h.tail.right
    rw [length_entriesAll] at hright
    cases k with
    | zero => exact .single hfirst
    | succ k =>
      rcases Nat.lt_or_ge k (sizeAll members) with hlt | hge
      · have hinner := ihmembers h.tail.left hlt
        rw [show index + 1 + k = index + (k + 1) from by omega] at hinner
        exact .head hfirst hinner
      · rw [sizeAll, size] at hk
        have hrest := ihrest hright (k := k - sizeAll members) (by omega)
        rwa [show index + 1 + sizeAll members + (k - sizeAll members) = index + (k + 1) from by
          omega] at hrest

/-- The entries of ordered nodes lie within their bounds. -/
theorem bounds_of_mem_entriesAll {lo hi : Nat} {nodes : List OutlineNode} (ho : Ordered lo hi nodes)
    {parent : Option Nat} {index : Nat} {e : OutlineEntry} (he : e ∈ entriesAll parent index nodes) :
    lo ≤ e.declared.first ∧ e.declared.first ≤ e.declared.last ∧ e.declared.last < hi := by
  induction ho generalizing parent index with
  | nil => simp [entriesAll] at he
  | cons hlo hmembers _ hrest ihmembers ihrest =>
    have hmembersLe := hmembers.le
    have hrestLe := hrest.le
    rw [entriesAll_cons] at he
    rcases List.mem_cons.mp he with rfl | hmem
    · dsimp only
      omega
    · rcases List.mem_append.mp hmem with hmem | hmem
      · have hinner := ihmembers hmem
        omega
      · have hlater := ihrest hmem
        omega

/-- **Of two entries the first one surrounds the second one, or ends before it.** Induction on the order
of the nodes; the cases are where the two entries stand. -/
theorem surrounds_or_last_lt {lo hi : Nat} {nodes : List OutlineNode} (ho : Ordered lo hi nodes)
    {parent : Option Nat} {index : Nat} (h : HasAt entries index (entriesAll parent index nodes))
    {i j : Nat} (hij : i < j) {e f : OutlineEntry}
    (he : (entriesAll parent index nodes)[i]? = some e)
    (hf : (entriesAll parent index nodes)[j]? = some f) :
    Surrounds entries (index + i) (index + j) ∨ e.declared.last < f.declared.first := by
  induction ho generalizing parent index i j with
  | nil => simp [entriesAll] at he
  | @cons _ _ d members rest hlo hmembers hkind hrest ihmembers ihrest =>
    rw [entriesAll_cons] at h he hf
    have hinside := h.tail.left
    have hright := h.tail.right
    rw [length_entriesAll] at hright
    cases j with
    | zero => exact absurd hij (Nat.not_lt_zero i)
    | succ j =>
      rw [List.getElem?_cons_succ, List.getElem?_append, length_entriesAll] at hf
      cases i with
      | zero =>
        obtain rfl : ⟨d, parent⟩ = e := by simpa using he
        split at hf
        · next hlt =>
          -- the second entry is one of the members of the first one
          have hsurrounds := surrounds_entriesAll hmembers hinside hlt
          rw [show index + 1 + j = index + (j + 1) from by omega] at hsurrounds
          exact Or.inl hsurrounds
        · exact Or.inr (bounds_of_mem_entriesAll hrest (List.mem_of_getElem? hf)).1
      | succ i =>
        rw [List.getElem?_cons_succ, List.getElem?_append, length_entriesAll] at he
        split at he
        · next hi' =>
          split at hf
          · have hinner := ihmembers hinside (by omega) he hf
            rwa [show index + 1 + i = index + (i + 1) from by omega,
              show index + 1 + j = index + (j + 1) from by omega] at hinner
          · -- a member ends with what contains it, or before
            have hmember := bounds_of_mem_entriesAll hmembers (List.mem_of_getElem? he)
            have hlater := bounds_of_mem_entriesAll hrest (List.mem_of_getElem? hf)
            exact Or.inr (by omega)
        · next hi' =>
          rw [if_neg (by omega)] at hf
          have hlater := ihrest hright (by omega) he hf
          rwa [show index + 1 + sizeAll members + (i - sizeAll members) = index + (i + 1) from by omega,
            show index + 1 + sizeAll members + (j - sizeAll members) = index + (j + 1) from by
              omega] at hlater

/-- **An entry stands within that which is named as its container**, behind its first token; the
container is a namespace or a type. -/
theorem parent_of_getElem?_entriesAll {lo hi : Nat} {nodes : List OutlineNode}
    (ho : Ordered lo hi nodes) {parent : Option Nat} {index k : Nat} {e : OutlineEntry}
    (he : (entriesAll parent index nodes)[k]? = some e) :
    e.parent = parent ∨
      ∃ (q : Nat) (c : OutlineEntry), e.parent = some (index + q) ∧
        (entriesAll parent index nodes)[q]? = some c ∧ c.declared.kind.IsContainer ∧
        c.declared.first < e.declared.first ∧ e.declared.last ≤ c.declared.last := by
  induction ho generalizing parent index k with
  | nil => simp [entriesAll] at he
  | @cons _ _ d members rest hlo hmembers hkind hrest ihmembers ihrest =>
    rw [entriesAll_cons] at he ⊢
    cases k with
    | zero =>
      obtain rfl : ⟨d, parent⟩ = e := by simpa using he
      exact Or.inl rfl
    | succ k =>
      rw [List.getElem?_cons_succ, List.getElem?_append, length_entriesAll] at he
      split at he
      · next hlt =>
        have hbounds := bounds_of_mem_entriesAll hmembers (List.mem_of_getElem? he)
        rcases ihmembers he with hparent | ⟨q, c, hparent, hq, hc, hfirst, hlast⟩
        · have hne : members ≠ [] := by
            rintro rfl
            exact absurd hlt (Nat.not_lt_zero k)
          exact Or.inr ⟨0, ⟨d, parent⟩, by rw [hparent]; rfl, rfl, hkind hne, hbounds.1, by
            dsimp only; omega⟩
        · obtain ⟨hqlt, -⟩ := List.getElem?_eq_some_iff.mp hq
          refine Or.inr ⟨q + 1, c, ?_, ?_, hc, hfirst, hlast⟩
          · rw [hparent, show index + 1 + q = index + (q + 1) from by omega]
          · rw [List.getElem?_cons_succ, List.getElem?_append_left hqlt, hq]
      · rcases ihrest he with hparent | ⟨q, c, hparent, hq, hc, hfirst, hlast⟩
        · exact Or.inl hparent
        · refine Or.inr ⟨sizeAll members + q + 1, c, ?_, ?_, hc, hfirst, hlast⟩
          · rw [hparent, show index + 1 + sizeAll members + q = index + (sizeAll members + q + 1) from
              by omega]
          · rw [List.getElem?_cons_succ, List.getElem?_append_right (by rw [length_entriesAll]; omega),
              length_entriesAll, Nat.add_sub_cancel_left, hq]

/-- **An entry stands within all that surround it.** Induction along the containers between the two. -/
theorem first_lt_and_last_le_of_surrounds {lo hi : Nat} {nodes : List OutlineNode}
    (ho : Ordered lo hi nodes) {i j : Nat} (h : Surrounds (entriesAll none 0 nodes) i j)
    {f : OutlineEntry} (hf : (entriesAll none 0 nodes)[j]? = some f) :
    ∃ e, (entriesAll none 0 nodes)[i]? = some e ∧ e.declared.kind.IsContainer ∧
      e.declared.first < f.declared.first ∧ f.declared.last ≤ e.declared.last := by
  have hdirect : ∀ {p k : Nat} {g : OutlineEntry}, (entriesAll none 0 nodes)[k]? = some g →
      g.parent = some p → ∃ e, (entriesAll none 0 nodes)[p]? = some e ∧
        e.declared.kind.IsContainer ∧ e.declared.first < g.declared.first ∧
        g.declared.last ≤ e.declared.last := by
    intro p k g hg hp
    rcases parent_of_getElem?_entriesAll ho hg with hnone | ⟨q, c, hq, hc, hbounds⟩
    · rw [hp] at hnone
      cases hnone
    · rw [hp, Nat.zero_add] at hq
      obtain rfl := Option.some.inj hq
      exact ⟨c, hc, hbounds⟩
  induction h generalizing f with
  | single hcontains =>
    obtain ⟨g, hg, hparent⟩ := hcontains
    obtain rfl : g = f := Option.some.inj (hg.symm.trans hf)
    exact hdirect hf hparent
  | tail _ hcontains ih =>
    obtain ⟨g, hg, hparent⟩ := hcontains
    obtain rfl : g = f := Option.some.inj (hg.symm.trans hf)
    obtain ⟨c, hc, -, hfirst, hlast⟩ := hdirect hf hparent
    obtain ⟨e, he, hkind, hfirst', hlast'⟩ := ih hc
    exact ⟨e, he, hkind, by omega, by omega⟩

end OutlineNode

end Excerpt
