import VisualScript.Project.Document
import VisualScript.Text.Escape
import VisualScript.Text.Lines

/-!
# Project — Localization

The text of a token table.
-/

namespace VisualScript.LocalizationFile

/-- What a token escapes. -/
def escapes : Text.EscapeTable := [('\\', '\\'), ('"', '"'), ('\n', 'n')]

/-- A text in double quotes. -/
def quote (s : String) : String :=
  String.ofList ('"' :: (Text.escape escapes s.toList ++ ['"']))

def lines (f : LocalizationFile) : List String :=
  ["\"lang\"", "\x7b", "\t\"Language\" \"" ++ f.language ++ "\"", "\t\"Tokens\"", "\t\x7b"] ++
  f.tokens.map (fun (k, v) => "\t\t" ++ quote k ++ " " ++ quote v) ++
  ["\t\x7d", "\x7d", ""]

/-- The token table as the game reads it, tokens in their order. -/
def text (f : LocalizationFile) : String := Text.joinLines f.lines

def fileName (f : LocalizationFile) : String := f.baseName ++ "_" ++ f.language ++ ".txt"

end VisualScript.LocalizationFile
