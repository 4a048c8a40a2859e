import Excerpt.Proofs.Source.Ranges
import Excerpt.Proofs.Source.SpelledMember

/-!
# Excerpt — reading recovers every forest

The code of a forest is read member by member: a member that is read whole takes one step, and a namespace
or type takes one step for its header, those of its members, and one for its closing brace. So reading is at
the boundary of a member whenever the tree says so, and what has been read there is the outline of the tree.

* **`Forest.outline`** — the nodes of a forest; **`entriesAll_outline`** — their entries.
* **`reaches_leaf`**, **`reaches_opened`**, **`reaches_closed`** — the steps over a member, over the header
  of a block and over its end.
* **`reaches_forest`** — the run over a forest, wherever it stands.
* **`SourceFile.parse?_forest`** — a text whose code is that of a forest has the declarations of the forest.
-/

namespace Excerpt

namespace Forest

/-- The outline of a forest whose first token is at the position. -/
def outline (pos : Nat) : Forest → List OutlineNode
  | nil => []
  | leaf m rest =>
    m.declared.toList.map (fun d => .node (d.shift pos) []) ++ rest.outline (pos + m.code.length)
  | block b members rest =>
    .node (blockDeclared b pos members.code.length) (members.outline (pos + b.code.length + 1)) ::
      rest.outline (pos + b.code.length + members.code.length + 2)

theorem sizeAll_append (nodes nodes' : List OutlineNode) :
    OutlineNode.sizeAll (nodes ++ nodes') =
      OutlineNode.sizeAll nodes + OutlineNode.sizeAll nodes' := by
  induction nodes with
  | nil => exact (Nat.zero_add _).symm
  | cons n nodes ih =>
    rw [List.cons_append, OutlineNode.sizeAll, OutlineNode.sizeAll, ih, Nat.add_assoc]

theorem sizeAll_outline (f : Forest) (pos : Nat) : OutlineNode.sizeAll (f.outline pos) = f.size := by
  induction f generalizing pos with
  | nil => rfl
  | leaf m rest ih =>
    rw [outline, sizeAll_append, ih, size]
    cases m.declared <;> rfl
  | block b members rest ihMembers ihRest =>
    rw [outline, OutlineNode.sizeAll, OutlineNode.size, ihMembers, ihRest, size]
    omega

/-- **The entries of the outline are those of the forest.** -/
theorem entriesAll_outline (f : Forest) (parent : Option Nat) (index pos : Nat) :
    OutlineNode.entriesAll parent index (f.outline pos) = f.entries parent index pos := by
  induction f generalizing parent index pos with
  | nil => rfl
  | leaf m rest ih =>
    unfold outline entries
    cases m.declared with
    | none => exact ih parent index _
    | some d => exact congrArg (⟨d.shift pos, parent⟩ :: ·) (ih parent (index + 1) _)
  | block b members rest ihMembers ihRest =>
    have hsize : index + OutlineNode.size (.node (blockDeclared b pos members.code.length)
        (members.outline (pos + b.code.length + 1))) = index + 1 + members.size := by
      rw [OutlineNode.size, sizeAll_outline]
      omega
    rw [outline, OutlineNode.entriesAll, OutlineNode.entries, ihMembers, hsize, ihRest, entries]
    rfl

/-! ## Boundaries of members -/

/-- Members begin with a word or with an attribute section. -/
def BeginsMember (code : List Code) : Prop :=
  code.head?.map Code.kind = some .ident ∨ code.head?.map Code.kind = some .bracketOpen

theorem beginsMember_sections (sections : Sections) {code : List Code}
    (h : code.head?.map Code.kind = some .ident) : BeginsMember (sections.code ++ code) := by
  cases sections with
  | nil => exact Or.inl h
  | cons s sections => exact Or.inr rfl

theorem beginsMember_leaf (m : LeafMember) (rest : List Code) : BeginsMember (m.code ++ rest) := by
  rw [LeafMember.code, List.append_assoc, List.append_assoc]
  exact beginsMember_sections m.sections (head?_kind_append m.head?_kind_header _)

theorem beginsMember_block (b : BlockHeader) (rest : List Code) : BeginsMember (b.code ++ rest) := by
  rw [BlockHeader.code, List.append_assoc]
  exact beginsMember_sections b.sections (head?_kind_append b.head?_kind_header _)

/-- Behind the code neither a value nor a semicolon follows, which would belong to the member before. -/
structure Bounds (tail : List Code) : Prop where
  assign : tail.head?.map Code.kind ≠ some .assign
  semicolon : tail.head?.map Code.kind ≠ some .semicolon

theorem BeginsMember.bounds {code : List Code} (h : BeginsMember code) : Bounds code := by
  rcases h with h | h <;> exact ⟨by rw [h]; decide, by rw [h]; decide⟩

/-- A forest is bounded by its first member, or by what follows it. -/
theorem bounds_append (f : Forest) {tail : List Code} (h : Bounds tail) : Bounds (f.code ++ tail) := by
  cases f with
  | nil => exact h
  | leaf m rest =>
    rw [code, List.append_assoc]
    exact (beginsMember_leaf m _).bounds
  | block b members rest =>
    rw [code, List.append_assoc]
    exact (beginsMember_block b _).bounds

end Forest

namespace Outline

open Forest

/-- Where a member begins, it is read. -/
theorem reaches_takeMember {r : Reading} (h : BeginsMember r.code) :
    Reaches r (r.takeMember (Member.read r.enclosing r.code)) := by
  have hkind : r.code.head?.map Code.kind ≠ some .braceClose := by
    rcases h with h | h <;> rw [h] <;> decide
  cases hcode : r.code with
  | nil =>
    rw [hcode] at h
    rcases h with h | h <;> exact absurd h (by simp)
  | cons t rest =>
    rw [hcode] at hkind
    have ht : t.kind ≠ .braceClose := fun h => hkind (congrArg some h)
    rw [← hcode, ← next_eq_takeMember hcode ht]
    exact .step (by rw [hcode]; exact List.cons_ne_nil t rest) (.refl _)

/-- **One step reads a member that has no members.** -/
theorem reaches_leaf {r : Reading} {m : LeafMember} {tail : List Code}
    (hcode : r.code = m.code ++ tail) (hnamed : m.IsNamed r.enclosing) (htail : Bounds tail) :
    Reaches r ⟨r.outer, m.declared.toList.map (fun d => .node (d.shift r.pos) []) ++ r.done,
      r.pos + m.code.length, tail⟩ := by
  have hread : Member.read r.enclosing r.code = .whole m.declared m.code.length := by
    rw [hcode]
    exact LeafMember.read_leaf m hnamed htail.assign
  have hstep := reaches_takeMember (r := r) (by rw [hcode]; exact beginsMember_leaf m tail)
  rw [hread, Reading.takeMember, hcode, List.drop_left] at hstep
  have hnode : ∀ d ∈ m.declared.toList,
      OutlineNode.node ⟨d.kind, d.name, r.pos, r.pos + d.last, d.body.map (·.shift r.pos)⟩ [] =
        .node (d.shift r.pos) [] := by
    intro d hd
    obtain ⟨_, _, rfl⟩ := Option.map_eq_some_iff.mp (Option.mem_toList.mp hd)
    rfl
  rw [List.map_congr_left hnode] at hstep
  exact hstep

/-- The block of a namespace or type that begins at the reading position. -/
def opened (r : Reading) (b : BlockHeader) : OpenBlock :=
  ⟨b.kind, b.name, r.pos, r.pos + b.code.length, true, r.done⟩

/-- **One step reads the header of a namespace or type.** -/
theorem reaches_opened {r : Reading} {b : BlockHeader} {tail : List Code}
    (hcode : r.code = b.code ++ .curlyOpen :: tail) :
    Reaches r ⟨opened r b :: r.outer, [], r.pos + b.code.length + 1, tail⟩ := by
  have hread : Member.read r.enclosing r.code = .opening b.kind b.name b.code.length true := by
    rw [hcode]
    exact BlockHeader.read_block b r.enclosing tail
  have hstep := reaches_takeMember (r := r) (by rw [hcode]; exact beginsMember_block b _)
  have hdrop : (b.code ++ .curlyOpen :: tail).drop (b.code.length + 1) = tail := by
    rw [← List.drop_drop, List.drop_left, List.drop_one, List.tail_cons]
  rw [hread, Reading.takeMember, hcode, hdrop] at hstep
  exact hstep

/-- **One step reads the closing brace of a block.** -/
theorem reaches_closed {r : Reading} {b : OpenBlock} {outer : List OpenBlock} {tail : List Code}
    (houter : r.outer = b :: outer) (hclosable : b.closable = true)
    (hcode : r.code = .curlyClose :: tail) (htail : Bounds tail) :
    Reaches r ⟨outer, b.close r.pos r.pos r.done, r.pos + 1, tail⟩ := by
  have hsemicolon : (tail.head?.any fun t => t.kind = .semicolon) = false := by
    cases tail with
    | nil => rfl
    | cons t tail => exact decide_eq_false fun h => htail.semicolon (congrArg some h)
  have hnext : r.next = ⟨outer, b.close r.pos r.pos r.done, r.pos + 1, tail⟩ := by
    rw [next_eq_closeBlock hcode rfl, Reading.closeBlock, houter]
    dsimp only
    rw [if_pos hclosable, hsemicolon, Bool.and_false]
    rfl
  rw [← hnext]
  exact .step (by rw [hcode]; exact List.cons_ne_nil _ _) (.refl _)

theorem bounds_curlyClose (rest : List Code) : Bounds (.curlyClose :: rest) := by
  constructor <;> exact of_decide_eq_true rfl

/-- A block that is closed behind its members is the node of the forest. -/
theorem close_opened (r : Reading) (b : BlockHeader) (members : Forest) :
    let closing := r.pos + b.code.length + 1 + members.code.length
    (opened r b).close closing closing
        ((members.outline (r.pos + b.code.length + 1)).reverse ++ []) =
      .node (blockDeclared b r.pos members.code.length) (members.outline (r.pos + b.code.length + 1)) ::
        r.done := by
  unfold OpenBlock.close
  rw [List.append_nil, List.reverse_reverse]
  rfl

/-- **The run over a forest, wherever it stands.** By induction on the forest: the reading before it is at
the boundary of its first member, and so is the one behind each member before the next one. -/
theorem reaches_forest (f : Forest) {r : Reading} {tail : List Code} (hcode : r.code = f.code ++ tail)
    (hnamed : f.IsNamed r.enclosing) (htail : Bounds tail) :
    Reaches r ⟨r.outer, (f.outline r.pos).reverse ++ r.done, r.pos + f.code.length, tail⟩ := by
  induction f generalizing r tail with
  | nil =>
    obtain ⟨outer, done, pos, code⟩ := r
    obtain rfl : code = tail := hcode
    exact .refl _
  | leaf m rest ih =>
    have hcode' : r.code = m.code ++ (rest.code ++ tail) := by
      rw [hcode, Forest.code, List.append_assoc]
    have hleaf := reaches_leaf hcode' hnamed.1 (bounds_append rest htail)
    have hrest := hleaf.trans (ih rfl hnamed.2 htail)
    have hnodes : ((Forest.leaf m rest).outline r.pos).reverse ++ r.done =
        (rest.outline (r.pos + m.code.length)).reverse ++
          (m.declared.toList.map (fun d => .node (d.shift r.pos) []) ++ r.done) := by
      rw [outline, List.reverse_append, List.append_assoc]
      cases m.declared <;> rfl
    rw [hnodes, Forest.code, List.length_append, ← Nat.add_assoc]
    exact hrest
  | block b members rest ihMembers ihRest =>
    have hcode' : r.code = b.code ++ .curlyOpen :: (members.code ++ .curlyClose :: (rest.code ++ tail)) := by
      rw [hcode, Forest.code]
      simp
    have hopened := reaches_opened hcode'
    -- the members stand in the block, up to its closing brace
    have hmembers := hopened.trans (ihMembers rfl hnamed.1 (bounds_curlyClose _))
    have hclosed := hmembers.trans (reaches_closed rfl rfl rfl (bounds_append rest htail))
    have hrest := hclosed.trans (ihRest rfl hnamed.2 htail)
    have hnodes : ((Forest.block b members rest).outline r.pos).reverse ++ r.done =
        (rest.outline (r.pos + b.code.length + members.code.length + 2)).reverse ++
          (.node (blockDeclared b r.pos members.code.length)
            (members.outline (r.pos + b.code.length + 1)) :: r.done) := by
      rw [outline, List.reverse_cons, List.append_assoc, List.singleton_append]
    have hbehind : r.pos + b.code.length + 1 + members.code.length + 1 =
        r.pos + b.code.length + members.code.length + 2 := by omega
    have hend : r.pos + (Forest.block b members rest).code.length =
        r.pos + b.code.length + members.code.length + 2 + rest.code.length := by
      rw [Forest.code]
      simp only [List.length_append, List.length_cons]
      omega
    dsimp only at hrest
    rw [close_opened, hbehind] at hrest
    rw [hnodes, hend]
    exact hrest

/-- **The outline of a forest is read from its code.** -/
theorem read?_forest {f : Forest} (hnamed : f.IsNamed none) : read? f.code = some (f.outline 0) := by
  have hreach := reaches_forest f (r := Reading.start f.code) (List.append_nil _).symm hnamed
    (by constructor <;> exact nofun)
  unfold read?
  dsimp only
  rw [finish_eq_of_reaches hreach, finish_of_code_eq_nil rfl]
  show some ((f.outline 0).reverse ++ []).reverse = _
  rw [List.append_nil, List.reverse_reverse]

end Outline

namespace SourceFile

/-- **A text whose code is that of a forest has the declarations of the forest.** Comments, preprocessor
lines and white space stand wherever they may: they are no code. The declarations come in the order of the
text, a block before those in it, each with its kind, its name, what contains it, the range from its first
token to its last one, and its body. -/
theorem parse?_forest {text : Text} {f : Forest} (hcode : codeOf (tokenize text) = f.code)
    (hnamed : f.IsNamed none) :
    parse? text = some ⟨Layout.ofText text,
      ((f.entries none 0 0).map (Layout.ofText text).declaration).toArray⟩ := by
  unfold parse?
  dsimp only
  rw [show codeOf (Layout.ofText text).tokens.toList = f.code from hcode, Outline.read?_forest hnamed,
    Option.map_some, Forest.entriesAll_outline]

/-- A namespace with a type in it, the type with a constructor and a method in it, and comments in
between. -/
def commentedType : Text :=
  ["namespace N \x7b\n", "  // a type\n", "  [S] class A \x7b\n", "    A() \x7b \x7d\n",
    "    int F(int x) => x; // x\n", "  \x7d\n", "\x7d\n"].flatMap String.toList

/-- What it spells. -/
def commentedTypeForest : Forest :=
  let section' : BlockCode := ⟨[.word "S"], .token _ _ rfl nofun .nil⟩
  let method : LeafMember :=
    .method [] ⟨[], nofun⟩ ⟨⟨[.word "int"], .name _ (by decide +kernel)⟩, ⟨.word "F", by decide +kernel⟩⟩
      ⟨[.word "int", .word "x"], .token _ _ rfl nofun (.token _ _ rfl nofun .nil)⟩
      (.arrow ⟨[.word "x"], .token _ _ rfl nofun .nil⟩)
  .block (.namespace [] ⟨.word "N", [], by decide +kernel⟩)
    (.block (.type [section'] ⟨[], nofun⟩ .class ⟨.word "A", by decide +kernel⟩)
      (.leaf (.constructor [] ⟨[], nofun⟩ ⟨.word "A", by decide +kernel⟩ ⟨[], .nil⟩ ⟨[], .nil⟩)
        (.leaf method .nil)) .nil) .nil

/-- The type takes along the comment above it, and the method that behind it. -/
theorem parse?_forest_commentedType :
    codeOf (tokenize commentedType) = commentedTypeForest.code ∧ commentedTypeForest.IsNamed none ∧
      (parse? commentedType).map (fun file =>
          file.declarations.toList.map fun d => (d.kind, d.name, d.parent, d.full)) =
        some [(.namespace, ['N'], none, ⟨0, 87⟩), (.type, ['A'], some 0, ⟨14, 85⟩),
          (.constructor, ['A'], some 1, ⟨42, 53⟩), (.method, ['F'], some 1, ⟨54, 81⟩)] := by
  have hcode : codeOf (tokenize commentedType) = commentedTypeForest.code := by decide +kernel
  have hnamed : commentedTypeForest.IsNamed none := by
    refine ⟨⟨⟨⟨_, rfl, rfl, rfl⟩, ?_, trivial⟩, trivial⟩, trivial⟩
    rintro _ ⟨⟩
    decide +kernel
  refine ⟨hcode, hnamed, ?_⟩
  rw [parse?_forest hcode hnamed]
  decide +kernel

end SourceFile

end Excerpt
