import Excerpt.Source.Member

/-!
Outlines: the declarations of a source, each with those that it contains. Reading goes through the code
once, from member to member; what is left open where the text ends is closed there.
-/

namespace Excerpt

/-- A declaration and the declarations that it contains, in the order of the text. -/
inductive OutlineNode where
  | node (declared : Declared) (members : List OutlineNode)

namespace Outline

/-- A namespace or type whose members are being read. Its first token is at `first`, its header ends
at `header`; `before` holds the declarations that stand before it in what surrounds it, the last one
first. -/
structure OpenBlock where
  kind : DeclarationKind
  name : Text
  first : Nat
  header : Nat
  closable : Bool
  before : List OutlineNode

namespace OpenBlock

/-- What the members of the block stand in. -/
def enclosing (b : OpenBlock) : Enclosing := ⟨b.kind, b.name⟩

/-- The declarations up to and with the block, the last one first: its own, which ends with the token
at `last`, contains `members`, given the last one first. Only a type has a body, up to the token at
`closing`. -/
def close (b : OpenBlock) (closing last : Nat) (members : List OutlineNode) : List OutlineNode :=
  let body := if b.kind = .type then BodyExtent.between? b.header closing else none
  .node ⟨b.kind, b.name, b.first, last, body⟩ members.reverse :: b.before

end OpenBlock

/-- How far a source is read. `outer` holds the open blocks, the innermost first, and `done` the
declarations read so far in the innermost one, the last one first; `code` is what follows from position
`pos` on. -/
structure Reading where
  outer : List OpenBlock
  done : List OutlineNode
  pos : Nat
  code : List Code

namespace Reading

def start (code : List Code) : Reading := ⟨[], [], 0, code⟩

/-- What the next member stands in. -/
def enclosing (r : Reading) : Option Enclosing := r.outer.head?.map OpenBlock.enclosing

/-- Reads a closing brace, behind which `rest` follows, and with a type the semicolon behind it. A brace
that closes nothing is passed over. -/
def closeBlock (r : Reading) (rest : List Code) : Reading :=
  match r.outer with
  | [] => ⟨[], r.done, r.pos + 1, rest⟩
  | b :: surrounding =>
    if b.closable then
      if b.kind = .type && rest.head?.any (·.kind = .semicolon) then
        ⟨surrounding, b.close r.pos (r.pos + 1) r.done, r.pos + 2, rest.tail⟩
      else ⟨surrounding, b.close r.pos r.pos r.done, r.pos + 1, rest⟩
    else ⟨r.outer, r.done, r.pos + 1, rest⟩

/-- Passes a member, or goes on with the first member in it. -/
def takeMember (r : Reading) : Member → Reading
  | .whole declared n =>
    let nodes := declared.toList.map fun d =>
      OutlineNode.node ⟨d.kind, d.name, r.pos, r.pos + d.last, d.body.map (·.shift r.pos)⟩ []
    ⟨r.outer, nodes ++ r.done, r.pos + n, r.code.drop n⟩
  | .opening kind name header closable =>
    ⟨⟨kind, name, r.pos, r.pos + header, closable, r.done⟩ :: r.outer, [], r.pos + header + 1,
      r.code.drop (header + 1)⟩

/-- Reads the next member or closing brace. Behind the end of the code there is nothing to read. -/
def next (r : Reading) : Reading :=
  match r.code with
  | [] => r
  | t :: rest =>
    if t.kind = .braceClose then r.closeBlock rest
    else r.takeMember (Member.read r.enclosing (t :: rest))

theorem length_code_closeBlock_le (r : Reading) (rest : List Code) :
    (r.closeBlock rest).code.length ≤ rest.length := by
  unfold closeBlock
  repeat' split
  all_goals simp only [List.length_tail]
  all_goals omega

theorem length_code_takeMember (r : Reading) (m : Member) :
    (r.takeMember m).code.length = r.code.length - m.length := by
  cases m <;> simp only [takeMember, Member.length, List.length_drop]

theorem length_code_next_lt (r : Reading) (h : r.code ≠ []) :
    r.next.code.length < r.code.length := by
  unfold next
  split
  · next hcode => exact absurd hcode h
  · next t rest hcode =>
    rw [hcode]
    split
    · have hle := length_code_closeBlock_le r rest
      simp only [List.length_cons]
      omega
    · next hkind =>
      have hpos := Member.length_pos r.enclosing t rest hkind
      rw [length_code_takeMember, hcode]
      simp only [List.length_cons]
      omega

def finish (r : Reading) : Reading := if _ : r.code = [] then r else r.next.finish
termination_by r.code.length
decreasing_by exact length_code_next_lt r (by assumption)

end Reading

/-- Closes the blocks that are open at the end of the text with its last token, the innermost first.
There is no such token to close a type with where the reading position has `overrun` the end. -/
def closeAll (last : Nat) (overrun : Bool) :
    List OpenBlock → List OutlineNode → Option (List OutlineNode)
  | [], done => some done.reverse
  | b :: outer, done =>
    if b.kind = .type && overrun then none else closeAll last overrun outer (b.close last last done)

/-- The declarations of a source, from its code. There are none where a header that runs to the end of
the text leaves a type open. -/
def read? (code : List Code) : Option (List OutlineNode) :=
  let r := (Reading.start code).finish
  closeAll (code.length - 1) (code.length < r.pos) r.outer r.done

end Outline

/-- A declaration of an outline with the index of the one that contains it. -/
structure OutlineEntry where
  declared : Declared
  parent : Option Nat
  deriving DecidableEq, Repr

namespace OutlineNode

mutual

/-- The number of declarations of a node, its own included. -/
def size : OutlineNode → Nat
  | .node _ members => sizeAll members + 1

def sizeAll : List OutlineNode → Nat
  | [] => 0
  | n :: rest => size n + sizeAll rest

end

mutual

/-- The declarations of a node in the order of the text, where its own gets the index `index` and is
contained in that with the index `parent`. -/
def entries (parent : Option Nat) (index : Nat) : OutlineNode → List OutlineEntry
  | .node declared members => ⟨declared, parent⟩ :: entriesAll (some index) (index + 1) members

/-- The declarations of some nodes, indexed from `index` on. -/
def entriesAll (parent : Option Nat) (index : Nat) : List OutlineNode → List OutlineEntry
  | [] => []
  | n :: rest => entries parent index n ++ entriesAll parent (index + size n) rest

end

end OutlineNode

end Excerpt
