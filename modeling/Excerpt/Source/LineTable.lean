import Excerpt.Text.Basic

/-!
Line tables: where the lines of a text start, and on which line a byte offset lies. Offsets and lines
count from zero.
-/

namespace Excerpt

/-- The offsets behind the line feeds of a text that starts at `offset`. -/
def offsetsAfterLineFeeds (offset : Nat) : Text → List Nat
  | [] => []
  | c :: s =>
    let next := offset + c.utf8Size
    if c = '\n' then next :: offsetsAfterLineFeeds next s else offsetsAfterLineFeeds next s

/-- The byte offsets at which the lines of a text start, in increasing order. -/
structure LineTable where
  starts : Array Nat
  deriving DecidableEq, Repr

namespace LineTable

/-- The line table of a text: a line starts at offset zero and behind each line feed. -/
def ofText (s : Text) : LineTable := ⟨(0 :: offsetsAfterLineFeeds 0 s).toArray⟩

/-- The number of starts up to `offset`, where the first `lo` starts are among them and those from
`hi` on are not: a search that halves the interval. -/
def countUpTo (table : LineTable) (offset lo hi : Nat) : Nat :=
  if lo < hi then
    let mid := (lo + hi) / 2
    if table.starts.getD mid 0 ≤ offset then countUpTo table offset (mid + 1) hi
    else countUpTo table offset lo mid
  else lo
termination_by hi - lo

def lineOf (table : LineTable) (offset : Nat) : Nat :=
  table.countUpTo offset 0 table.starts.size - 1

/-- The offset at which the line starts; a line that the text does not have starts at zero. -/
def lineStart (table : LineTable) (line : Nat) : Nat := table.starts.getD line 0

def startOfLineAt (table : LineTable) (offset : Nat) : Nat := table.lineStart (table.lineOf offset)

/-- The number of bytes between the start of its line and the offset. -/
def columnOf (table : LineTable) (offset : Nat) : Nat := offset - table.startOfLineAt offset

end LineTable

end Excerpt
