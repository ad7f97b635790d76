/-!
# Text — Lines

Cutting a text into lines.  A line ends at a line feed, a carriage return, the two together, or
one of the other separators (vertical tab, form feed, the file, group and record separators, next
line, line and paragraph separator).  The end of the text ends the last line, and no line is empty
only because the text ends there.
-/

namespace VisualScript.Text

def isLineEnd (c : Char) : Bool :=
  [10, 11, 12, 13, 28, 29, 30, 133, 8232, 8233].contains c.toNat

/-- Puts a character in front of the first line. -/
def consFirst (c : Char) : List (List Char) → List (List Char)
  | []         => [[c]]
  | l :: lines => (c :: l) :: lines

/-- The lines of a text, without their line ends. -/
def splitLines : List Char → List (List Char)
  | []                 => []
  | '\r' :: '\n' :: cs => [] :: splitLines cs
  | c :: cs            => if isLineEnd c then [] :: splitLines cs else consFirst c (splitLines cs)

/-- The lines, each followed by a line feed except the last. -/
def joinLines (lines : List String) : String := "\n".intercalate lines

end VisualScript.Text
