import VisualScript.Project.Document
import VisualScript.Settings

/-!
# Build — Layout

Where the files of a mod go: a folder named for its author and name, with directories for scripts,
weapons, interface files and localization.
-/

namespace VisualScript

structure ModLayout where
  folder        : String
  modDir        : String
  scripts       : String
  vscripts      : String
  weapons       : String
  resource      : String
  ui            : String
  menus         : String
  localization  : String

namespace ModLayout

/-- The folder of a mod: author and name without white space. -/
def folderName (author name : String) : String :=
  String.ofList ((author ++ "-" ++ name).toList.filter (!Text.isBlank ·))

/-- A directory without the slashes at its end. -/
def withoutSlashes (dir : String) : String :=
  String.ofList (dir.toList.reverse.dropWhile (· == '/')).reverse

def make (outputDir author name : String) : ModLayout :=
  let folder := folderName author name
  let modDir := withoutSlashes outputDir ++ "/" ++ folder
  { folder := folder
    modDir := modDir
    scripts := modDir ++ "/scripts"
    vscripts := modDir ++ "/scripts/vscripts"
    weapons := modDir ++ "/scripts/weapons"
    resource := modDir ++ "/resource"
    ui := modDir ++ "/resource/ui"
    menus := modDir ++ "/resource/ui/menus"
    localization := modDir ++ "/resource/localization" }

end ModLayout

/-- The name with an extension, unless it ends in it. -/
def withExtension (name extension : String) : String :=
  if extension.toList.isSuffixOf name.toList then name else name ++ extension

/-- The file name of a script; the extension of the settings is added unless there is one. -/
def scriptFileName (settings : Settings) (name : String) : String :=
  if [".nut", ".gnut"].any fun e => e.toList.isSuffixOf name.toList then name
  else name ++ settings.scriptExtension

end VisualScript
