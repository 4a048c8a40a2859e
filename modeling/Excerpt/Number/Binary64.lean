import Excerpt.Number.Digits

/-!
Binary floating point numbers of 64 bits, read from decimal text and compared. A number is its bit
pattern; reading rounds the exact decimal value to the nearest number, a tie to the even one.
-/

namespace Excerpt

/-- A binary floating point number of 64 bits, given by its bit pattern: the sign, eleven bits of
exponent, 52 bits of fraction. -/
structure Binary64 where
  bits : Nat
  deriving DecidableEq, Repr

namespace Binary64

/-- The bit that makes a number negative. -/
def signBit : Nat := 1 <<< 63

/-- The pattern of positive infinity; a number has a greater magnitude only if it is not a number. -/
def infinityBits : Nat := 0x7FF <<< 52

/-- The pattern of the quiet value that is not a number. -/
def nanBits : Nat := 0x7FF8 <<< 48

/-- The magnitude with the given bits, under the given sign. -/
def ofMagnitude (negative : Bool) (magnitude : Nat) : Binary64 :=
  ⟨if negative then signBit + magnitude else magnitude⟩

/-- The magnitude of the number: its pattern without the sign. -/
def magnitude (x : Binary64) : Nat := x.bits % signBit

/-- Whether the pattern stands for no number. -/
def isNaN (x : Binary64) : Bool := infinityBits < x.magnitude

/-- The place of the number in the total order: negative patterns in reverse, then positive ones. -/
def orderKey (x : Binary64) : Int :=
  if x.bits < signBit then (x.bits : Int) else (signBit : Int) - 1 - (x.bits : Int)

/-- The natural number nearest to the quotient, the even one of two at the same distance. -/
def divNearestEven (num den : Nat) : Nat :=
  let q := num / den
  let twice := 2 * (num % den)
  if twice < den then q else if den < twice then q + 1 else if q % 2 = 0 then q else q + 1

/-- The greatest exponent `k` with `2 ^ k ≤ num / den`, for positive arguments. -/
def floorLog2 (num den : Nat) : Int :=
  let k : Int := (Nat.log2 num : Int) - (Nat.log2 den : Int)
  if den <<< k.toNat ≤ num <<< (-k).toNat then k else k - 1

/-- The magnitude nearest to the positive quotient: its unit is a power of two, at least the least
positive number, such that the quotient has 53 binary digits of it. -/
def magnitudeOfRatio (num den : Nat) : Nat :=
  -- below the least exponent the unit stays, and the number has fewer than 53 binary digits
  let unit : Int := max (floorLog2 num den - 52) (-1074)
  let significand := divNearestEven (num <<< (-unit).toNat) (den <<< unit.toNat)
  -- the leading digit adds one to the exponent field, and a carry out of rounding one more
  min infinityBits (((unit + 1074).toNat <<< 52) + significand)

/-- The magnitude nearest to `significand * 10 ^ exponent`. An exponent that leaves the range of
finite or of positive numbers is not computed with. -/
def magnitudeOfDecimal (significand : Nat) (exponent : Int) : Nat :=
  let place : Int := exponent + (digits significand).length
  if significand = 0 || place < -400 then 0
  else if 400 < place then infinityBits
  else magnitudeOfRatio (significand * Nat.pow 10 exponent.toNat) (Nat.pow 10 (-exponent).toNat)

/-- The exponent that may follow a numeral: nothing, or `e`, an optional sign and digits. -/
def readExponent? : Text → Option Int
  | [] => some 0
  | e :: s =>
    if e = 'e' || e = 'E' then
      match s with
      | '+' :: s => (ofDigits? s).map Int.ofNat
      | '-' :: s => (ofDigits? s).map fun n => -(n : Int)
      | s => (ofDigits? s).map Int.ofNat
    else none

/-- The magnitude that an unsigned numeral spells: digits with at most one point among or beside them,
and an optional exponent. -/
def readMagnitude? (s : Text) : Option Nat :=
  let whole := s.takeWhile Char.isDigit
  let rest := s.dropWhile Char.isDigit
  let (fraction, rest) :=
    match rest with
    | '.' :: rest => (rest.takeWhile Char.isDigit, rest.dropWhile Char.isDigit)
    | _ => ([], rest)
  if whole.isEmpty && fraction.isEmpty then none
  else (readExponent? rest).map fun e =>
    magnitudeOfDecimal (ofDigits (whole ++ fraction)) (e - fraction.length)

/-- The number that the text spells: a numeral, `inf`, `infinity` or `nan` in any case, each with an
optional sign. -/
def read? (s : Text) : Option Binary64 :=
  let (negative, s) :=
    match s with
    | '+' :: s => (false, s)
    | '-' :: s => (true, s)
    | s => (false, s)
  let word := s.map Char.toLower
  if word = "inf".toList || word = "infinity".toList then some (ofMagnitude negative infinityBits)
  else if word = "nan".toList then some (ofMagnitude negative nanBits)
  else (readMagnitude? s).map (ofMagnitude negative)

end Binary64

end Excerpt
