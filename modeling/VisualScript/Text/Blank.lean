import VisualScript.Text.Ranges

/-!
# Text — Blank

White space: the characters that are trimmed from the ends of a text and that make a field count
as empty.
-/

namespace VisualScript.Text

def blankRanges : List (Nat × Nat) :=
  [(9, 13), (28, 32), (133, 133), (160, 160), (5760, 5760), (8192, 8202), (8232, 8233),
   (8239, 8239), (8287, 8287), (12288, 12288)]

def isBlank (c : Char) : Bool := inRanges c.toNat blankRanges

/-- White space around a number: the information separators do not belong to it. -/
def isSpace (c : Char) : Bool := isBlank c && !(28 ≤ c.toNat && c.toNat ≤ 31)

/-- Drops the characters of a class from both ends. -/
def trimBy (p : Char → Bool) (cs : List Char) : List Char :=
  ((cs.dropWhile p).reverse.dropWhile p).reverse

/-- The text without the white space at its ends. -/
def trim (s : String) : String := String.ofList (trimBy isBlank s.toList)

/-- A text of white space only; the empty text is one. -/
def isBlankText (s : String) : Bool := s.toList.all isBlank

end VisualScript.Text
