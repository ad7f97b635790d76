import VisualScript.Json.Value
import VisualScript.Record.Check
import VisualScript.Settings

/-!
# Build — Options

What a caller chooses for one build.
-/

namespace VisualScript

structure BuildOptions where
  /-- Where to build; when none or empty, the store is asked. -/
  outputDir      : Option String
  /-- Whether every script carries the whole project. -/
  includeProject : Bool

namespace BuildOptions

/-- The options of a caller that chooses nothing. -/
def ofSettings (s : Settings) : BuildOptions := ⟨s.defaultOutputDir, s.embedProjectData⟩

def read (s : Settings) : Json → Checked BuildOptions :=
  Check.record fun fields =>
    BuildOptions.mk
      <$> Check.fieldOr fields ["output_dir"] s.defaultOutputDir (Check.nullable Check.text)
      <*> Check.fieldOr fields ["include_project_data"] s.embedProjectData Check.bool

def toJson (o : BuildOptions) : Json :=
  .obj [("output_dir", o.outputDir.elim .null .str),
        ("include_project_data", .bool o.includeProject)]

end BuildOptions

end VisualScript
