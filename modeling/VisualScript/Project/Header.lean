import VisualScript.Project.Document
import VisualScript.Text.Lines

/-!
# Project — Header

The comment at the top of every generated script.  It carries the time the project was modified,
so an unchanged project gives the same text.
-/

namespace VisualScript.Header

def rule : String := "// ========================================"

/-- A line for a field, unless the field is empty. -/
def unlessEmpty (label value : String) : List String :=
  if value = "" then [] else ["// " ++ label ++ ": " ++ value]

def lines (m : Metadata) (includeGraph : Bool) : List String :=
  [rule, "// Mod Studio - Generated Code", rule, "// Project: " ++ m.name,
   "// Version: " ++ m.version] ++
  unlessEmpty "Author" m.author ++ unlessEmpty "Description" m.description ++
  ["// Generated: " ++ m.modifiedAt, "// Editor Version: " ++ m.editorVersion, rule] ++
  (if includeGraph then
     ["//", "// WARNING: Do not manually edit the metadata below.",
      "// It is used to restore the visual script in the editor.", "//"]
   else [])

def text (m : Metadata) (includeGraph : Bool) : String :=
  Text.joinLines (lines m includeGraph) ++ "\n\n"

end VisualScript.Header
