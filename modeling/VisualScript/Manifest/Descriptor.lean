import VisualScript.Project.Document
import VisualScript.Text.Lines

/-!
# Manifest — Descriptor

The file that describes a mod to the game and lists the localization files it ships.
-/

namespace VisualScript.Descriptor

def indent : String := "        "

/-- The path pattern of a token table for all its languages. -/
def pattern (f : LocalizationFile) : String :=
  "resource/localization/" ++ f.baseName ++ "_%language%.txt"

/-- Adds a path at the end unless it is there. -/
def addPath (paths : List String) (path : String) : List String :=
  if path ∈ paths then paths else paths ++ [path]

/-- One pattern per base name, then the enabled paths of the mod settings, none of them twice. -/
def paths (m : ModSettings) (files : List LocalizationFile) : List String :=
  (files.map pattern ++ (m.localizations.filter (·.enabled)).map (·.path)).foldl addPath []

/-- A line with a key and its value. -/
def pair (key value : String) : String := indent ++ "\"" ++ key ++ "\" \"" ++ value ++ "\""

def lines (m : ModSettings) (files : List LocalizationFile) : List String :=
  let listed := paths m files
  ["\"mod\"", "\x7b", pair "name" m.name, pair "id" m.id, pair "description" m.description,
   pair "version" m.version, pair "author" m.author] ++
  (if listed.isEmpty then []
   else
     ["", indent ++ "\"LocalizationFiles\"", indent ++ "\x7b"] ++
     listed.map (fun p => indent ++ pair p "1") ++ [indent ++ "\x7d"]) ++
  ["\x7d"]

def text (m : ModSettings) (files : List LocalizationFile) : String :=
  Text.joinLines (lines m files)

end VisualScript.Descriptor
