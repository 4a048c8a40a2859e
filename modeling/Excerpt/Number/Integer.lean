import Excerpt.Number.Digits

/-!
Integers of a bounded range, read from decimal text.
-/

namespace Excerpt

/-- A range of integers, both ends included. -/
structure IntegerRange where
  least : Int
  greatest : Int
  deriving DecidableEq, Repr

namespace IntegerRange

/-- The integers of `bits` bits, negative ones included. -/
def signed (bits : Nat) : IntegerRange := ⟨-(Nat.pow 2 (bits - 1) : Nat), (Nat.pow 2 (bits - 1) : Nat) - 1⟩

/-- The natural numbers of `bits` bits. -/
def unsigned (bits : Nat) : IntegerRange := ⟨0, (Nat.pow 2 bits : Nat) - 1⟩

/-- Whether the integer lies in the range. -/
def holds (range : IntegerRange) (n : Int) : Bool := range.least ≤ n && n ≤ range.greatest

/-- The integer of the range that the text spells: an optional sign and digits. A minus sign is read
only where the range has negative numbers, so a range of natural numbers refuses `-0`. -/
def read? (range : IntegerRange) (s : Text) : Option Int :=
  let value : Option Int :=
    match s with
    | '+' :: s => (ofDigits? s).map Int.ofNat
    | '-' :: s => if range.least < 0 then (ofDigits? s).map fun n => -(n : Int) else none
    | s => (ofDigits? s).map Int.ofNat
  value.filter range.holds

end IntegerRange

end Excerpt
