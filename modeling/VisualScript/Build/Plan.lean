import VisualScript.Build.Layout
import VisualScript.Manifest.Descriptor
import VisualScript.Manifest.Registration
import VisualScript.Project.Localization

/-!
# Build — Plan

Everything a build does to a store, as a list of actions: the old folder goes, the directories
come, then the files in a fixed order.  The plan depends on the project, its scripts and the
output directory alone.
-/

namespace VisualScript

/-- A script that was generated, with its path below the script directory. -/
structure BuiltScript where
  path    : String
  code    : String
  context : ScriptContext

/-- A file to be written. -/
structure Artifact where
  dir     : String
  /-- Its path below `dir`. -/
  name    : String
  content : String

/-- One request to the store. -/
inductive Action where
  | deleteDirectory (path : String)
  | createDirectory (path : String)
  | write (artifact : Artifact)

namespace Artifact

def path (a : Artifact) : String := a.dir ++ "/" ++ a.name

/-- A path up to its last slash. -/
def parentOf (path : String) : String :=
  String.ofList ((path.toList.reverse.dropWhile (· != '/')).drop 1).reverse

def parent (a : Artifact) : String := parentOf a.path

/-- Writing a file; a directory below its base is created first. -/
def actions (a : Artifact) : List Action :=
  if a.parent = a.dir then [.write a] else [.createDirectory a.parent, .write a]

end Artifact

namespace Plan

/-- The directories a project needs. -/
def directories (l : ModLayout) (p : Project) : List String :=
  let ui := !p.interfaces.isEmpty
  [l.modDir, l.scripts, l.vscripts] ++
  (if p.weapons.isEmpty then [] else [l.weapons]) ++
  (if ui then [l.resource, l.ui] else []) ++
  (if p.interfaces.any (·.kind = .menu) then [l.menus] else []) ++
  (if p.localizations.isEmpty then []
   else if ui then [l.localization] else [l.resource, l.localization])

def weapon (l : ModLayout) (f : WeaponFile) : Artifact :=
  ⟨l.weapons, withExtension f.name ".txt", f.content⟩

def interface (l : ModLayout) (f : InterfaceFile) : Artifact :=
  match f.kind with
  | .menu => ⟨l.menus, withExtension f.name ".menu", f.content⟩
  | .res  => ⟨l.ui, withExtension f.name ".res", f.content⟩

/-- The files of a build in the order in which they are written. -/
def artifacts (l : ModLayout) (m : ModSettings) (p : Project) (scripts : List BuiltScript) :
    List Artifact :=
  scripts.map (fun s => ⟨l.vscripts, s.path, s.code⟩) ++
  p.weapons.map (weapon l) ++
  p.interfaces.map (interface l) ++
  p.localizations.map (fun f => ⟨l.localization, f.fileName, f.text⟩) ++
  [⟨l.vscripts, "scripts.rson", Registration.text (scripts.map fun s => (s.path, s.context))⟩,
   ⟨l.modDir, "mod.vdf", Descriptor.text m p.localizations⟩]

/-- The actions of a build. -/
def actions (l : ModLayout) (m : ModSettings) (p : Project) (scripts : List BuiltScript) :
    List Action :=
  .deleteDirectory l.modDir ::
    ((directories l p).map .createDirectory ++ (artifacts l m p scripts).flatMap Artifact.actions)

end Plan

end VisualScript
