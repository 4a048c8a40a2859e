import Excerpt.Text.Basic

/-!
Bytes of a text and back. Reading never fails: what is not UTF-8 becomes U+FFFD, one for each longest
stretch of bytes that could still have become a character.
-/

namespace Excerpt.Utf8

def encode (s : Text) : List UInt8 := s.flatMap String.utf8EncodeChar

/-- The character that stands for bytes which are not UTF-8. -/
def replacement : Char := '\uFFFD'

def isContinuation (b : UInt8) : Bool := 0x80 ≤ b && b ≤ 0xBF

/-- Whether `second` may follow `first`, the first byte of a character of three bytes. -/
def isSecondOfThree (first second : UInt8) : Bool :=
  if first = 0xE0 then 0xA0 ≤ second && second ≤ 0xBF
  else if first = 0xED then 0x80 ≤ second && second ≤ 0x9F
  else isContinuation second

/-- Whether `second` may follow `first`, the first byte of a character of four bytes. -/
def isSecondOfFour (first second : UInt8) : Bool :=
  if first = 0xF0 then 0x90 ≤ second && second ≤ 0xBF
  else if first = 0xF4 then 0x80 ≤ second && second ≤ 0x8F
  else isContinuation second

def payload (b : UInt8) : Nat := b.toNat % 0x40

/-- The text that the bytes spell, with U+FFFD for what is not UTF-8. -/
def decodeLossy : List UInt8 → Text
  | [] => []
  | a :: s =>
    if a < 0x80 then Char.ofNat a.toNat :: decodeLossy s
    else if 0xC2 ≤ a && a ≤ 0xDF then
      match s with
      | b :: s =>
        if isContinuation b then
          Char.ofNat (a.toNat % 0x20 * 0x40 + payload b) :: decodeLossy s
        else replacement :: decodeLossy (b :: s)
      | [] => [replacement]
    else if 0xE0 ≤ a && a ≤ 0xEF then
      match s with
      | b :: c :: s =>
        if isSecondOfThree a b then
          if isContinuation c then
            Char.ofNat (a.toNat % 0x10 * 0x1000 + payload b * 0x40 + payload c) :: decodeLossy s
          else replacement :: decodeLossy (c :: s)
        else replacement :: decodeLossy (b :: c :: s)
      -- the text ends inside a character: what could still have become one is replaced as a whole
      | [b] => if isSecondOfThree a b then [replacement] else replacement :: decodeLossy [b]
      | [] => [replacement]
    else if 0xF0 ≤ a && a ≤ 0xF4 then
      match s with
      | b :: c :: d :: s =>
        if isSecondOfFour a b then
          if isContinuation c then
            if isContinuation d then
              Char.ofNat (a.toNat % 0x08 * 0x40000 + payload b * 0x1000 + payload c * 0x40 +
                payload d) :: decodeLossy s
            else replacement :: decodeLossy (d :: s)
          else replacement :: decodeLossy (c :: d :: s)
        else replacement :: decodeLossy (b :: c :: d :: s)
      | [b, c] =>
        if isSecondOfFour a b then
          if isContinuation c then [replacement] else replacement :: decodeLossy [c]
        else replacement :: decodeLossy [b, c]
      | [b] => if isSecondOfFour a b then [replacement] else replacement :: decodeLossy [b]
      | [] => [replacement]
    else replacement :: decodeLossy s
termination_by s => s.length

/-- The text that the bytes spell, if they are UTF-8. -/
def decode? (bytes : ByteArray) : Option Text := (String.fromUTF8? bytes).map String.toList

/-- The text that the bytes of a file spell, with U+FFFD for what is not UTF-8. -/
def decodeFile (bytes : ByteArray) : Text :=
  match decode? bytes with
  | some s => s
  | none => decodeLossy bytes.toList

/-- The bytes of a file that holds the text. -/
def encodeFile (s : Text) : ByteArray := (String.ofList s).toUTF8

end Excerpt.Utf8
