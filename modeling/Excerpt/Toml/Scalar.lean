import Excerpt.Number.Binary64
import Excerpt.Number.Integer
import Excerpt.Toml.Value

/-!
TOML scalars that are written without quotes: integers, floating point numbers, dates and times, and
truth values.
-/

namespace Excerpt.Toml

/-- The digits of a numeral whose groups are joined by single underscores. -/
def digitsOf? (isDigit : Char → Bool) (s : Text) : Option Text :=
  let groups := s.splitOn '_'
  if groups.all fun g => ! g.isEmpty && g.all isDigit then some groups.flatten else none

def decimalDigits? (s : Text) : Option Text :=
  (digitsOf? Char.isDigit s).filter fun ds => ds.length = 1 || ds.head? ≠ some '0'

def ofBase (base : Nat) (ds : Text) : Nat :=
  ds.foldl (fun n c => base * n + (hexDigit? c).getD 0) 0

def isDigitOf (base : Nat) (c : Char) : Bool := (hexDigit? c).any (· < base)

def splitSign (s : Text) : Bool × Text :=
  match s with
  | '-' :: s => (true, s)
  | '+' :: s => (false, s)
  | s => (false, s)

def integer? (s : Text) : Option Int :=
  match s with
  | '0' :: 'x' :: s => (digitsOf? (isDigitOf 16) s).map fun ds => (ofBase 16 ds : Int)
  | '0' :: 'o' :: s => (digitsOf? (isDigitOf 8) s).map fun ds => (ofBase 8 ds : Int)
  | '0' :: 'b' :: s => (digitsOf? (isDigitOf 2) s).map fun ds => (ofBase 2 ds : Int)
  | s =>
    let (negative, s) := splitSign s
    (decimalDigits? s).map fun ds => if negative then -(ofDigits ds : Int) else (ofDigits ds : Int)

/-- The widest integers that are read. -/
def integerRange : IntegerRange where
  least := (IntegerRange.signed 128).least
  greatest := (IntegerRange.unsigned 128).greatest

/-- Whether the text is a floating point number. One with digits must be finite. -/
def isFloat (s : Text) : Bool :=
  let (_, unsigned) := splitSign s
  if unsigned = "inf".toList || unsigned = "nan".toList then true
  else
    let isExponent := fun c => c = 'e' || c = 'E'
    let (mantissa, exponent) :=
      match Text.splitFirst? isExponent unsigned with
      | some (m, e) => (m, (digitsOf? Char.isDigit (splitSign e).2).isSome)
      | none => (unsigned, true)
    let (whole, fraction) :=
      match Text.splitFirst? (· = '.') mantissa with
      | some (w, f) => (w, (digitsOf? Char.isDigit f).isSome)
      | none => (mantissa, unsigned.any isExponent)
    exponent && fraction && (decimalDigits? whole).isSome &&
      (Binary64.read? (unsigned.filter (· ≠ '_'))).any fun x => x.magnitude < Binary64.infinityBits

/-- The number that exactly `n` digits at the start of the text spell, and the rest. -/
def takeDigits? (n : Nat) (s : Text) : Option (Nat × Text) :=
  if (s.take n).length = n then (ofDigits? (s.take n)).map fun k => (k, s.drop n) else none

def skip? (c : Char) : Text → Option Text
  | d :: s => if d = c then some s else none
  | [] => none

def daysOf (year month : Nat) : Nat :=
  if month = 2 then
    if year % 4 = 0 && (year % 100 ≠ 0 || year % 400 = 0) then 29 else 28
  else if [4, 6, 9, 11].contains month then 30
  else 31

def date? (s : Text) : Option Text := do
  let (year, s) ← takeDigits? 4 s
  let s ← skip? '-' s
  let (month, s) ← takeDigits? 2 s
  let s ← skip? '-' s
  let (day, s) ← takeDigits? 2 s
  if 1 ≤ month && month ≤ 12 && 1 ≤ day && day ≤ daysOf year month then some s else none

/-- What follows the fraction of a second, if there is one. -/
def fraction? (s : Text) : Option Text :=
  match s with
  | '.' :: s =>
    match s.dropWhile Char.isDigit with
    | rest => if rest.length < s.length then some rest else none
  | s => some s

/-- What follows a time. Its seconds can be left out. -/
def time? (s : Text) : Option Text := do
  let (hour, s) ← takeDigits? 2 s
  let s ← skip? ':' s
  let (minute, s) ← takeDigits? 2 s
  if 24 ≤ hour || 60 ≤ minute then none
  else
    match s with
    | ':' :: s => do
      let (second, s) ← takeDigits? 2 s
      if 60 < second then none else fraction? s
    | s => some s

/-- Whether the text is the offset of a time zone, or empty. -/
def isOffset (s : Text) : Bool :=
  match s with
  | [] | ['Z'] | ['z'] => true
  | '+' :: s | '-' :: s =>
    let read := do
      let (hour, s) ← takeDigits? 2 s
      let s ← skip? ':' s
      let (minute, s) ← takeDigits? 2 s
      pure (hour < 24 && minute < 60 && s.isEmpty)
    read.getD false
  | _ => false

/-- Whether the text is a date, a time, or both joined by `T` or a space and perhaps with an offset. -/
def isDate (s : Text) : Bool :=
  match date? s with
  | some [] => true
  | some (c :: rest) =>
    (c = 'T' || c = 't' || c = ' ') && (time? rest).any isOffset
  | none => (time? s).any List.isEmpty

/-- The value that unquoted text stands for. -/
def scalar? (s : Text) : Option Value :=
  if s = "true".toList then some (.boolean true)
  else if s = "false".toList then some (.boolean false)
  else
    match integer? s with
    | some n => if integerRange.holds n then some (.integer n) else none
    | none => if isFloat s then some .float else if isDate s then some .date else none

end Excerpt.Toml
