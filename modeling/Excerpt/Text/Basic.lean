import Excerpt.Text.WhiteSpace

/-!
Text as the list of its characters. Everything that reads text recurses on this list; positions in a
text are byte offsets of its UTF-8 form, and `Text.width` measures them.
-/

namespace Excerpt

/-- A text is the list of its characters. -/
abbrev Text := List Char

namespace Text

/-- The number of bytes that the text takes in UTF-8. -/
def width (s : Text) : Nat := s.foldr (fun c n => c.utf8Size + n) 0

@[simp] theorem width_nil : width [] = 0 := rfl

@[simp] theorem width_cons (c : Char) (s : Text) : width (c :: s) = c.utf8Size + width s := rfl

@[simp] theorem width_append (s t : Text) : width (s ++ t) = width s + width t := by
  induction s with
  | nil => simp
  | cons c s ih => simp [ih, Nat.add_assoc]

/-- The text without its first `n` bytes; a character that the cut would split goes with them. -/
def dropBytes : Nat → Text → Text
  | 0, s => s
  | _ + 1, [] => []
  -- the subtraction stops at zero, so a character that the cut splits is dropped whole
  | n + 1, c :: s => dropBytes (n + 1 - c.utf8Size) s

/-- The characters of the text that end within its first `n` bytes. -/
def takeBytes : Nat → Text → Text
  | 0, _ => []
  | _ + 1, [] => []
  | n + 1, c :: s => if c.utf8Size ≤ n + 1 then c :: takeBytes (n + 1 - c.utf8Size) s else []

/-- The part of the text from byte `start` up to, and without, byte `stop`. -/
def slice (s : Text) (start stop : Nat) : Text := takeBytes (stop - start) (dropBytes start s)

/-- The text without the longest end whose characters all satisfy `p`. -/
def dropEndWhile (p : Char → Bool) (s : Text) : Text := (s.reverse.dropWhile p).reverse

def trimStart (s : Text) : Text := s.dropWhile isWhiteSpace

def trimEnd (s : Text) : Text := dropEndWhile isWhiteSpace s

def trim (s : Text) : Text := trimEnd (trimStart s)

def isBlank (s : Text) : Bool := s.all isWhiteSpace

/-- What stands before and after the first character that satisfies `p`. -/
def splitFirst? (p : Char → Bool) (s : Text) : Option (Text × Text) :=
  match s.dropWhile (! p ·) with
  | [] => none
  | _ :: after => some (s.takeWhile (! p ·), after)

/-- What stands before and after the last character that satisfies `p`. -/
def splitLast? (p : Char → Bool) (s : Text) : Option (Text × Text) :=
  (splitFirst? p s.reverse).map fun (after, before) => (before.reverse, after.reverse)

/-- What stands before and after the first occurrence of `needle`. -/
def splitAt? (needle : Text) : Text → Option (Text × Text)
  | [] => if needle.isEmpty then some ([], []) else none
  | c :: s =>
    match needle.isPrefixOf? (c :: s) with
    | some after => some ([], after)
    | none => (splitAt? needle s).map fun (before, after) => (c :: before, after)

end Text

end Excerpt
