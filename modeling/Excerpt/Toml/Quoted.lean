import Excerpt.Number.Digits

/-!
TOML strings: between double quotes with escapes, between single quotes without, and between three of
either over several lines.
-/

namespace Excerpt.Toml

/-- Whether the character may not stand in a string or comment as it is. -/
def isControl (c : Char) : Bool := (c.toNat < 0x20 && c ≠ '\t') || c.toNat = 0x7F

/-- The character that `n` hexadecimal digits at the start of the text name, and the rest. -/
def hexCharacter? (n : Nat) (s : Text) : Option (Char × Text) :=
  let ds := s.take n
  if ds.length = n && ds.all fun c => (hexDigit? c).isSome then
    let code := ds.foldl (fun k c => 16 * k + (hexDigit? c).getD 0) 0
    if code < 0xD800 || (0xE000 ≤ code && code < 0x110000) then some (Char.ofNat code, s.drop n)
    else none
  else none

/-- The character that stands behind a backslash, and the rest. -/
def escape? (s : Text) : Option (Char × Text) :=
  match s with
  | 'b' :: s => some ('\x08', s)
  | 't' :: s => some ('\t', s)
  | 'n' :: s => some ('\n', s)
  | 'f' :: s => some ('\x0c', s)
  | 'r' :: s => some ('\r', s)
  | 'e' :: s => some ('\x1b', s)
  | '"' :: s => some ('"', s)
  | '\\' :: s => some ('\\', s)
  | 'x' :: s => hexCharacter? 2 s
  | 'u' :: s => hexCharacter? 4 s
  | 'U' :: s => hexCharacter? 8 s
  | _ => none

/-- What follows a line break, if the text begins with one. -/
def newline? (s : Text) : Option Text :=
  match s with
  | '\n' :: s | '\r' :: '\n' :: s => some s
  | _ => none

/-- What follows a backslash at the end of a line: white space, a line break, and all white space and line
breaks behind it. -/
def continuation? (s : Text) : Option Text :=
  let isBlank := fun c => c = ' ' || c = '\t'
  (newline? (s.dropWhile isBlank)).map fun s =>
    s.dropWhile fun c => c = ' ' || c = '\t' || c = '\n' || c = '\r'

/-- Reads up to the closing quotes of a string, where `fuel` bounds the number of characters. With
`escapes` a backslash is special, and `multiline` strings are closed by three quotes, before which two more
may belong to the string. -/
def readString (quote : Char) (escapes multiline : Bool) : (fuel : Nat) → Text → Option (Text × Text)
  | 0, _ => none
  | fuel + 1, s =>
    match s with
    | [] => none
    | c :: rest =>
      if c = quote then
        if ! multiline then some ([], rest)
        else
          let quotes := (s.takeWhile (· = quote)).length
          if quotes < 3 then
            (readString quote escapes multiline fuel (s.drop quotes)).map fun (text, rest) =>
              (List.replicate quotes quote ++ text, rest)
          -- of up to five quotes the last three close the string
          else if 5 < quotes then none
          else some (List.replicate (quotes - 3) quote, s.drop quotes)
      else if c = '\\' && escapes then
        match if multiline then continuation? rest else none with
        | some rest => readString quote escapes multiline fuel rest
        | none =>
          match escape? rest with
          | none => none
          | some (c, rest) =>
            (readString quote escapes multiline fuel rest).map fun (text, rest) => (c :: text, rest)
      else
        match if multiline then newline? s else none with
        | some rest =>
          (readString quote escapes multiline fuel rest).map fun (text, rest) => ('\n' :: text, rest)
        | none =>
          if isControl c then none
          else
            (readString quote escapes multiline fuel rest).map fun (text, rest) => (c :: text, rest)

/-- The string at the start of the text, which begins with a quote, and the rest. A line break directly
behind three quotes does not count. -/
def string? (s : Text) : Option (Text × Text) :=
  let fuel := s.length + 1
  let body := fun s => (newline? s).getD s
  match s with
  | '"' :: '"' :: '"' :: s => readString '"' true true fuel (body s)
  | '"' :: s => readString '"' true false fuel s
  | '\'' :: '\'' :: '\'' :: s => readString '\'' false true fuel (body s)
  | '\'' :: s => readString '\'' false false fuel s
  | _ => none

end Excerpt.Toml
