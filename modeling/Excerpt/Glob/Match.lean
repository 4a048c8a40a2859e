import Excerpt.Glob.Pattern
import Excerpt.Text.Utf8

/-!
What glob patterns match. A pattern has a shape, which is matched with the UTF-8 bytes of a text: a
character class stands for one byte out of those that its members begin with, end with and lie between.
-/

namespace Excerpt

/-- A set of bytes: those in one of the ranges, or all others. -/
structure ByteSet where
  negated : Bool
  ranges : List (UInt8 × UInt8)
  deriving DecidableEq, Repr

namespace ByteSet

def has (set : ByteSet) (b : UInt8) : Bool :=
  (set.ranges.any fun (lo, hi) => lo ≤ b && b ≤ hi) != set.negated

def all : ByteSet := ⟨true, []⟩

def noSlash : ByteSet := ⟨true, [(0x2F, 0x2F)]⟩

def single (b : UInt8) : ByteSet := ⟨false, [(b, b)]⟩

/-- The ranges of bytes that a range of characters stands for: every byte of its ends but the last one
of the lower and the first one of the upper end, and the range between these two. -/
def rangesOf (lo hi : Char) : List (UInt8 × UInt8) :=
  let a := String.utf8EncodeChar lo
  let b := String.utf8EncodeChar hi
  if lo = hi then a.map fun x => (x, x)
  else
    (a.dropLast.map fun x => (x, x)) ++ [(a.getLast?.getD 0, b.head?.getD 0)] ++
      (b.tail.map fun x => (x, x))

end ByteSet

inductive Shape where
  | nothing
  | one (set : ByteSet)
  | run (set : ByteSet)
  | both (a b : Shape)
  | either (a b : Shape)
  deriving DecidableEq, Repr

namespace Shape

def ofBytes (bytes : List UInt8) : Shape :=
  bytes.foldr (fun b shape => both (one (.single b)) shape) nothing

/-- Marks the places that a byte of the set leads to from a marked place. -/
def step (set : ByteSet) (bytes : List UInt8) (marks : List Bool) : List Bool :=
  false :: List.zipWith (fun b marked => marked && set.has b) bytes marks

/-- Marks the places that bytes of the set lead to from a marked place, `reached` being whether they
lead to the first one. -/
def spread (set : ByteSet) (reached : Bool) : List UInt8 → List Bool → List Bool
  | _, [] => []
  | [], marked :: _ => [marked || reached]
  | b :: bytes, marked :: marks =>
    let here := marked || reached
    here :: spread set (here && set.has b) bytes marks

/-- The places between the bytes that the shape leads to from the marked ones. -/
def advance (bytes : List UInt8) : Shape → List Bool → List Bool
  | nothing, marks => marks
  | one set, marks => step set bytes marks
  | run set, marks => spread set false bytes marks
  | both a b, marks => b.advance bytes (a.advance bytes marks)
  | either a b, marks => List.zipWith (· || ·) (a.advance bytes marks) (b.advance bytes marks)

def fits (shape : Shape) (bytes : List UInt8) : Bool :=
  (shape.advance bytes (true :: bytes.map fun _ => false)).getLast?.getD false

end Shape

namespace Glob

def slash : Shape := .one (.single 0x2F)

/-- Any number of whole directories, each with its slash. -/
def directories : Shape := .both (.run .all) slash

mutual

/-- The shape of a piece, where `wild` is what `?` and `*` stand for, unless the piece is a group of
nothing but empty alternatives. -/
def itemShape? (wild : ByteSet) : GlobItem → Option Shape
  | .literal c => some (.ofBytes (String.utf8EncodeChar c))
  | .anyOne => some (.one wild)
  | .anyRun => some (.run wild)
  | .directoriesFirst => some (.either (.either .nothing slash) directories)
  | .directoriesLast => some (.both slash (.run .all))
  | .directoriesBetween => some (.either slash (.both slash directories))
  | .charClass negated ranges =>
    some (.one ⟨negated, ranges.flatMap fun (lo, hi) => ByteSet.rangesOf lo hi⟩)
  | .alternatives branches => branchesShape? wild branches

def shape? (wild : ByteSet) : List GlobItem → Option Shape
  | [] => none
  | item :: items =>
    match itemShape? wild item, shape? wild items with
    | some a, some b => some (.both a b)
    | some a, none => some a
    | none, b => b

/-- The shape of one of several patterns; empty ones do not count. -/
def branchesShape? (wild : ByteSet) : List (List GlobItem) → Option Shape
  | [] => none
  | items :: branches =>
    match shape? wild items, branchesShape? wild branches with
    | some a, some b => some (.either a b)
    | some a, none => some a
    | none, b => b

end

/-- The shape of a pattern. Two stars alone stand for anything. -/
def shape (wild : ByteSet) (items : List GlobItem) : Shape :=
  match items with
  -- here the stars are the whole pattern, so no slash has to follow
  | [.directoriesFirst] => .run .all
  | items => (shape? wild items).getD .nothing

/-- Whether the pattern, in which `?` and `*` also stand for slashes, matches the text. -/
def matchesText (items : List GlobItem) (s : Text) : Bool :=
  (shape .all items).fits (Utf8.encode s)

end Glob

end Excerpt
