/-!
# Text — Escape

Backslash escapes.  A table names the characters that are written as a backslash and a letter;
every other character is written as itself.
-/

namespace VisualScript.Text

/-- The escaped characters, each with the letter that follows the backslash. -/
abbrev EscapeTable := List (Char × Char)

def escapeChar (table : EscapeTable) (c : Char) : List Char :=
  match table.lookup c with
  | some letter => ['\\', letter]
  | none        => [c]

def escape (table : EscapeTable) (cs : List Char) : List Char :=
  cs.flatMap (escapeChar table)

end VisualScript.Text
