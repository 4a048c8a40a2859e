import Excerpt.Proofs.Source.Nesting
import Excerpt.Proofs.Source.Recovery

/-!
# Excerpt — what each step of reading declares

Reading declares one thing after the other. A member adds what it declares behind all that was declared before,
whatever is open around it, and the header of a namespace or type adds that; a closing brace adds nothing. So the
declarations of a source file are those before a member, that of the member itself, and those behind it, and these
are told apart by where they begin.

* **`Outline.headings`** — what is declared so far, the open blocks included.
* **`Outline.headings_append`**, **`Outline.headings_close`** — more members, and the end of a block.
* **`Outline.exists_headings_next`**, **`Outline.exists_headings_of_reaches`** — a step and a run.
* **`SourceFile.declarationsAt`**, **`SourceFile.declarationsAt_of_read`** — the declarations that begin in a member.
-/

namespace Excerpt

/-- What is known of a declaration when it is met: its kind and its name, the position of its first token and the
index of what contains it. -/
structure Heading where
  kind : DeclarationKind
  name : Text
  first : Nat
  parent : Option Nat
  deriving DecidableEq, Repr

def OutlineEntry.heading (e : OutlineEntry) : Heading :=
  ⟨e.declared.kind, e.declared.name, e.declared.first, e.parent⟩

namespace OutlineNode

/-- The headings of some nodes, indexed from `index` on. -/
def headingsAll (parent : Option Nat) (index : Nat) (nodes : List OutlineNode) : List Heading :=
  (entriesAll parent index nodes).map OutlineEntry.heading

theorem entriesAll_append (parent : Option Nat) (index : Nat) (front back : List OutlineNode) :
    entriesAll parent index (front ++ back) =
      entriesAll parent index front ++ entriesAll parent (index + sizeAll front) back := by
  induction front generalizing index with
  | nil => rfl
  | cons n front ih =>
    rw [List.cons_append, entriesAll, ih, entriesAll, List.append_assoc, sizeAll, Nat.add_assoc]

theorem headingsAll_append (parent : Option Nat) (index : Nat) (front back : List OutlineNode) :
    headingsAll parent index (front ++ back) =
      headingsAll parent index front ++
        headingsAll parent (index + (headingsAll parent index front).length) back := by
  unfold headingsAll
  rw [entriesAll_append, List.map_append, List.length_map, length_entriesAll]

theorem headingsAll_node (parent : Option Nat) (index : Nat) (d : Declared) (members : List OutlineNode) :
    headingsAll parent index [.node d members] =
      ⟨d.kind, d.name, d.first, parent⟩ :: headingsAll (some index) (index + 1) members := by
  unfold headingsAll
  rw [entriesAll, entries, entriesAll, List.append_nil]
  rfl

end OutlineNode

namespace Outline

open OutlineNode (headingsAll headingsAll_append headingsAll_node)

mutual

/-- The index of the innermost of the open blocks. -/
def container : List OpenBlock → Option Nat
  | [] => none
  | b :: outer => some (headings outer b.before).length

/-- What is declared up to now: by the open blocks and what stands before each of them, and by the members of the
innermost one. -/
def headings : List OpenBlock → List OutlineNode → List Heading
  | [], done => headingsAll none 0 done.reverse
  | b :: outer, done =>
    headings outer b.before ++ ⟨b.kind, b.name, b.first, container outer⟩ ::
      headingsAll (some (headings outer b.before).length) ((headings outer b.before).length + 1) done.reverse

end

/-- **More members of the innermost block** are declared behind all the rest. -/
theorem headings_append (outer : List OpenBlock) (nodes done : List OutlineNode) :
    headings outer (nodes ++ done) =
      headings outer done ++ headingsAll (container outer) (headings outer done).length nodes.reverse := by
  cases outer with
  | nil =>
    unfold headings container
    rw [List.reverse_append, headingsAll_append, Nat.zero_add]
  | cons b outer =>
    unfold headings container
    rw [List.reverse_append, headingsAll_append, List.append_assoc, List.cons_append, List.length_append,
      List.length_cons]
    congr 4
    omega

/-- **The end of a block** declares nothing. -/
theorem headings_close (b : OpenBlock) (outer : List OpenBlock) (closing last : Nat) (done : List OutlineNode) :
    headings outer (b.close closing last done) = headings (b :: outer) done := by
  have hclose : b.close closing last done =
      [.node ⟨b.kind, b.name, b.first, last,
        if b.kind = .type then BodyExtent.between? b.header closing else none⟩ done.reverse] ++ b.before :=
    rfl
  rw [hclose, headings_append, List.reverse_singleton, headingsAll_node, headings]

/-- The end of the text closes all blocks. -/
theorem headingsAll_closeAll {last : Nat} {overrun : Bool} {outer : List OpenBlock} {done nodes : List OutlineNode}
    (h : closeAll last overrun outer done = some nodes) : headingsAll none 0 nodes = headings outer done := by
  induction outer generalizing done with
  | nil =>
    obtain rfl := Option.some.inj h
    unfold headings
    rfl
  | cons b outer ih =>
    unfold closeAll at h
    split at h
    · cases h
    · rw [ih h, headings_close]

/-- What is declared up to a reading. -/
def Reading.headings (r : Reading) : List Heading := Outline.headings r.outer r.done

/-- A member that is read whole adds what it declares. -/
theorem headings_takeMember_whole (r : Reading) (declared : Option Declared) (n : Nat) :
    (r.takeMember (.whole declared n)).headings =
      r.headings ++ declared.toList.map fun d => ⟨d.kind, d.name, r.pos, container r.outer⟩ := by
  unfold Reading.headings Reading.takeMember
  dsimp only
  rw [headings_append]
  cases declared with
  | none => rfl
  | some d => exact congrArg (Outline.headings r.outer r.done ++ ·) (headingsAll_node _ _ _ _)

theorem headings_takeMember_opening (r : Reading) (kind : DeclarationKind) (name : Text) (header : Nat)
    (closable : Bool) :
    (r.takeMember (.opening kind name header closable)).headings =
      r.headings ++ [⟨kind, name, r.pos, container r.outer⟩] := by
  unfold Reading.headings Reading.takeMember
  dsimp only
  rw [Outline.headings]
  rfl

theorem headings_closeBlock (r : Reading) (rest : List Code) : (r.closeBlock rest).headings = r.headings := by
  unfold Reading.headings Reading.closeBlock
  split
  · next houter => rw [houter]
  · next b surrounding houter =>
    rw [houter]
    split
    · split <;> exact headings_close b surrounding _ _ r.done
    · rfl

/-- **A step** adds what begins where it begins. -/
theorem exists_headings_next (r : Reading) :
    r.pos ≤ r.next.pos ∧ ∃ added, r.next.headings = r.headings ++ added ∧
      ∀ h ∈ added, h.first = r.pos ∧ r.pos < r.next.pos := by
  unfold Reading.next
  split
  · exact ⟨Nat.le_refl _, [], (List.append_nil _).symm, by simp⟩
  · next t rest hcode =>
    split
    · have hmoved : r.pos ≤ (r.closeBlock rest).pos := by
        unfold Reading.closeBlock
        repeat' split
        all_goals dsimp only; omega
      exact ⟨hmoved, [], by rw [headings_closeBlock, List.append_nil], by simp⟩
    · next hkind =>
      have hpos := Member.length_pos r.enclosing t rest hkind
      cases hread : Member.read r.enclosing (t :: rest) with
      | whole declared n =>
        rw [hread] at hpos
        refine ⟨Nat.le_add_right _ _, _, headings_takeMember_whole r declared n, ?_⟩
        intro h hmem
        obtain ⟨d, -, rfl⟩ := List.mem_map.mp hmem
        exact ⟨rfl, Nat.lt_add_of_pos_right hpos⟩
      | opening kind name header closable =>
        refine ⟨Nat.le_add_right r.pos (header + 1), _, headings_takeMember_opening r kind name header closable, ?_⟩
        intro h hmem
        obtain rfl := List.mem_singleton.mp hmem
        exact ⟨rfl, Nat.lt_succ_of_le (Nat.le_add_right _ _)⟩

/-- **A run** adds what begins where it begins or behind that, and before where it ends. -/
theorem exists_headings_of_reaches {r r' : Reading} (h : Reaches r r') :
    r.pos ≤ r'.pos ∧ ∃ added, r'.headings = r.headings ++ added ∧ ∀ h ∈ added, r.pos ≤ h.first ∧ h.first < r'.pos := by
  induction h with
  | refl r => exact ⟨Nat.le_refl _, [], (List.append_nil _).symm, by simp⟩
  | @step r r' _ _ ih =>
    obtain ⟨hle, first, hfirst, hadded⟩ := exists_headings_next r
    obtain ⟨hle', rest, hrest, hadded'⟩ := ih
    refine ⟨Nat.le_trans hle hle', first ++ rest, by rw [hrest, hfirst, List.append_assoc], ?_⟩
    intro h hmem
    rcases List.mem_append.mp hmem with hmem | hmem
    · obtain ⟨hat, hlt⟩ := hadded h hmem
      exact ⟨Nat.le_of_eq hat.symm, by omega⟩
    · obtain ⟨hge, hlt⟩ := hadded' h hmem
      exact ⟨Nat.le_trans hle hge, hlt⟩

/-- What is declared before a reading begins before it. -/
theorem first_lt_of_reaches_start {code : List Code} {r : Reading} (h : Reaches (.start code) r) :
    ∀ h ∈ r.headings, h.first < r.pos := by
  obtain ⟨-, added, hadded, hbetween⟩ := exists_headings_of_reaches h
  have hnothing : (Reading.start code).headings = [] := rfl
  rw [hadded, hnothing, List.nil_append]
  exact fun h hmem => (hbetween h hmem).2

/-- **What a source declares** is what is declared up to a reading on the way and what begins there or behind it. -/
theorem exists_headings_of_read? {code : List Code} {nodes : List OutlineNode} (hread : read? code = some nodes)
    {r : Reading} (h : Reaches (.start code) r) :
    ∃ added, headingsAll none 0 nodes = r.headings ++ added ∧ ∀ h ∈ added, r.pos ≤ h.first := by
  have hall := headingsAll_closeAll hread
  rw [finish_eq_of_reaches h] at hall
  obtain ⟨-, added, hadded, hbetween⟩ := exists_headings_of_reaches (reaches_finish r)
  exact ⟨added, hall.trans hadded, fun h hmem => (hbetween h hmem).1⟩

end Outline

/-! ## Where declarations begin -/

namespace Layout

variable {text : Text}

/-- Of two tokens of code, or a token and the end of the text, the first one begins before the second one. -/
theorem anchor_lt_anchor {p q : Nat} (hpq : p < q) (hp : p < (ofText text).code.size) :
    (ofText text).anchor p < (ofText text).anchor q := by
  have hsound := sound_ofText text
  obtain ⟨i, t, hi, hcodeI, htokenI⟩ := exists_codeToken? hsound hp
  have ht := Array.mem_of_getElem? htokenI
  have hstop := start_lt_stop_of_mem_tokensFrom (List.mem_toArray.mp ht)
  unfold anchor
  rw [hi]
  by_cases hq : q < (ofText text).code.size
  · obtain ⟨j, u, hj, hcodeJ, htokenJ⟩ := exists_codeToken? hsound hq
    have hbehind := hsound.tokens i j t u (hsound.indices p q i j hpq hcodeI hcodeJ) htokenI htokenJ
    rw [hj]
    exact Nat.lt_of_lt_of_le hstop hbehind
  · have hnone : (ofText text).codeToken? q = none := by
      simp [codeToken?, Array.getElem?_eq_none (Nat.not_lt.mp hq)]
    rw [hnone]
    exact Nat.lt_of_lt_of_le hstop (hsound.token t ht).2.1.le_width

theorem anchor_le_anchor {p q : Nat} (hpq : p ≤ q) : (ofText text).anchor p ≤ (ofText text).anchor q := by
  rcases Nat.lt_or_eq_of_le hpq with hlt | rfl
  · by_cases hp : p < (ofText text).code.size
    · exact Nat.le_of_lt (anchor_lt_anchor hlt hp)
    · have hnone : ∀ k, p ≤ k → (ofText text).anchor k = Text.width (ofText text).text := by
        intro k hk
        have hout : (ofText text).codeToken? k = none := by
          simp [codeToken?, Array.getElem?_eq_none (Nat.le_trans (Nat.not_lt.mp hp) hk)]
        unfold anchor
        rw [hout]
      exact Nat.le_of_eq ((hnone p (Nat.le_refl p)).trans (hnone q hpq).symm)
  · exact Nat.le_refl _

/-- Those of some headings that begin with one of `n` tokens of code, the first of them at the position. -/
def headingsAt (layout : Layout) (position n : Nat) (headings : List Heading) : List Heading :=
  headings.filter fun h =>
    layout.anchor position ≤ layout.anchor h.first && layout.anchor h.first < layout.anchor (position + n)

theorem headingsAt_append (layout : Layout) (position n : Nat) (front back : List Heading) :
    layout.headingsAt position n (front ++ back) =
      layout.headingsAt position n front ++ layout.headingsAt position n back :=
  List.filter_append front back

variable {position n : Nat} {headings : List Heading}

theorem headingsAt_of_forall_lt (hposition : position ≤ (ofText text).code.size)
    (h : ∀ heading ∈ headings, heading.first < position) : (ofText text).headingsAt position n headings = [] := by
  refine List.filter_eq_nil_iff.mpr fun heading hmem => ?_
  have hlt := anchor_lt_anchor (h heading hmem) (Nat.lt_of_lt_of_le (h heading hmem) hposition)
  simp [Nat.not_le.mpr hlt]

theorem headingsAt_of_forall_ge (h : ∀ heading ∈ headings, position + n ≤ heading.first) :
    (ofText text).headingsAt position n headings = [] := by
  refine List.filter_eq_nil_iff.mpr fun heading hmem => ?_
  simp [Nat.not_lt.mpr (anchor_le_anchor (h heading hmem))]

theorem headingsAt_of_forall_eq (hn : 0 < n) (hposition : position < (ofText text).code.size)
    (h : ∀ heading ∈ headings, heading.first = position) : (ofText text).headingsAt position n headings = headings := by
  refine List.filter_eq_self.mpr fun heading hmem => ?_
  rw [h heading hmem]
  simp [anchor_lt_anchor (Nat.lt_add_of_pos_right hn) hposition]

end Layout

namespace SourceFile

open Outline (Reaches Reading)

/-- The declarations of the file that begin with one of `n` tokens of its code, the first of them at the position. -/
def declarationsAt (file : SourceFile) (position n : Nat) : List Declaration :=
  file.declarations.toList.filter fun d =>
    file.layout.anchor position ≤ d.anchor && d.anchor < file.layout.anchor (position + n)

variable {text : Text} {file : SourceFile}

theorem declarations_eq_map_headings (h : parse? text = some file) :
    ∃ nodes, Outline.read? (codeOf (tokenize text)) = some nodes ∧
      file.declarations.toList.map (fun d => (d.kind, d.name, d.anchor, d.parent)) =
        (OutlineNode.headingsAll none 0 nodes).map fun h =>
          (h.kind, h.name, file.layout.anchor h.first, h.parent) := by
  obtain ⟨nodes, hnodes, rfl⟩ := Option.map_eq_some_iff.mp h
  refine ⟨nodes, hnodes, ?_⟩
  unfold OutlineNode.headingsAll
  dsimp only
  rw [List.map_map, List.map_map]
  rfl

/-- What begins with some tokens is what the headings say. -/
theorem exists_map_declarationsAt (h : parse? text = some file) (position n : Nat) :
    ∃ nodes, Outline.read? (codeOf (tokenize text)) = some nodes ∧
      (file.declarationsAt position n).map (fun d => (d.kind, d.name, d.parent)) =
        ((Layout.ofText text).headingsAt position n (OutlineNode.headingsAll none 0 nodes)).map
          fun h => (h.kind, h.name, h.parent) := by
  obtain ⟨nodes, hnodes, hdeclarations⟩ := declarations_eq_map_headings h
  refine ⟨nodes, hnodes, ?_⟩
  have hfiltered := congrArg (fun entries =>
    (entries.filter fun e => file.layout.anchor position ≤ e.2.2.1 &&
      e.2.2.1 < file.layout.anchor (position + n)).map fun e => (e.1, e.2.1, e.2.2.2)) hdeclarations
  rw [List.filter_map, List.map_map, List.filter_map, List.map_map] at hfiltered
  rw [← layout_of_parse? h]
  exact hfiltered

/-- **The declarations that begin in a member** which is read whole are those that are read there: the member's own,
if it has one, in the innermost block that is open. -/
theorem declarationsAt_of_read (h : parse? text = some file) {r : Reading}
    (hreach : Reaches (.start (codeOf (tokenize text))) r) {t : Code} {rest : List Code}
    (hcode : r.code = t :: rest) (ht : t.kind ≠ .braceClose) {declared : Option Declared} {n : Nat}
    (hread : Member.read r.enclosing r.code = .whole declared n) {k : Nat} (hk : 0 < k) (hkn : k ≤ n) :
    (file.declarationsAt r.pos k).map (fun d => (d.kind, d.name, d.parent)) =
      declared.toList.map fun d => (d.kind, d.name, Outline.container r.outer) := by
  obtain ⟨nodes, hnodes, hat⟩ := exists_map_declarationsAt h r.pos k
  have hne : r.code ≠ [] := by
    rw [hcode]
    exact List.cons_ne_nil t rest
  have hpos : r.pos < (Layout.ofText text).code.size := by
    rw [Layout.size_code_ofText]
    exact Outline.pos_lt_of_code_ne_nil (Outline.sound_of_reaches (Outline.sound_start _) hreach) hne
  have hnext : r.next = r.takeMember (.whole declared n) := by
    unfold Reading.next
    rw [hcode] at hread ⊢
    dsimp only
    rw [if_neg ht, hread]
  obtain ⟨later, hall, hlater⟩ := Outline.exists_headings_of_read? hnodes (hreach.trans (.step hne (.refl _)))
  rw [hnext] at hall hlater
  have hbehind : ∀ heading ∈ later, r.pos + k ≤ heading.first := fun heading hmem =>
    Nat.le_trans (Nat.add_le_add_left hkn _) (hlater heading hmem)
  have hhere : ∀ heading ∈ declared.toList.map fun d =>
      (⟨d.kind, d.name, r.pos, Outline.container r.outer⟩ : Heading), heading.first = r.pos := by
    intro heading hmem
    obtain ⟨d, -, rfl⟩ := List.mem_map.mp hmem
    rfl
  rw [hat, hall, Outline.headings_takeMember_whole, Layout.headingsAt_append, Layout.headingsAt_append,
    Layout.headingsAt_of_forall_lt (Nat.le_of_lt hpos) (Outline.first_lt_of_reaches_start hreach),
    Layout.headingsAt_of_forall_eq hk hpos hhere, Layout.headingsAt_of_forall_ge hbehind, List.nil_append,
    List.append_nil, List.map_map]
  rfl

/-- The block around a member is the declaration that has its index. -/
theorem exists_container (h : parse? text = some file) {r : Reading}
    (hreach : Reaches (.start (codeOf (tokenize text))) r) {b : Outline.OpenBlock} {outer : List Outline.OpenBlock}
    (houter : r.outer = b :: outer) :
    ∃ i d, Outline.container r.outer = some i ∧ file.declarations[i]? = some d ∧ d.kind = b.kind ∧ d.name = b.name ∧
      d.anchor = file.layout.anchor b.first := by
  obtain ⟨nodes, hnodes, hdeclarations⟩ := declarations_eq_map_headings h
  obtain ⟨later, hall, -⟩ := Outline.exists_headings_of_read? hnodes hreach
  have hat : r.headings[(Outline.headings outer b.before).length]? =
      some ⟨b.kind, b.name, b.first, Outline.container outer⟩ := by
    unfold Reading.headings
    rw [houter, Outline.headings]
    simp
  have hfound : (file.declarations.toList.map fun d => (d.kind, d.name, d.anchor, d.parent))[
      (Outline.headings outer b.before).length]? =
        some (b.kind, b.name, file.layout.anchor b.first, Outline.container outer) := by
    rw [hdeclarations, List.getElem?_map, hall, List.getElem?_append_left (List.getElem?_eq_some_iff.mp hat).1, hat]
    rfl
  rw [List.getElem?_map] at hfound
  obtain ⟨d, hd, heq⟩ := Option.map_eq_some_iff.mp hfound
  obtain ⟨hkind, hrest⟩ := Prod.mk.inj heq
  obtain ⟨hname, hrest⟩ := Prod.mk.inj hrest
  obtain ⟨hanchor, -⟩ := Prod.mk.inj hrest
  refine ⟨_, d, ?_, by rwa [Array.getElem?_toList] at hd, hkind, hname, hanchor⟩
  rw [houter, Outline.container]

end SourceFile

end Excerpt
