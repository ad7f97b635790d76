import VisualScript.Graph.Node

/-!
# Project — Document

The document an editor saves: metadata, editor state, script files with their graphs, and weapon,
interface and localization files.
-/

namespace VisualScript

structure Metadata where
  name          : String
  version       : String
  description   : String
  author        : String
  createdAt     : String
  modifiedAt    : String
  editorVersion : String

/-- A localization path declared by hand. -/
structure LocalizationEntry where
  path    : String
  enabled : Bool

/-- How the mod presents itself. -/
structure ModSettings where
  id            : String := "my_mod"
  name          : String := "My Mod"
  description   : String := "A custom mod created with Mod Studio"
  version       : String := "1.0.0"
  author        : String := "Unknown"
  localizations : List LocalizationEntry := []

/-- Editor state and mod settings.  Keys the document does not know are kept in `extra`. -/
structure ProjectSettings where
  canvasPosition : Placement := .unplaced
  canvasZoom     : Binary64 := .ofInt 1
  activeScript   : Option String := none
  folders        : List String := []
  mod            : Option ModSettings := none
  extra          : List (String × Json) := []

structure ScriptFile where
  id          : String
  name        : String
  nodes       : List Node := []
  connections : List Connection := []
  createdAt   : String
  modifiedAt  : String

/-- A weapon definition, kept as text. -/
structure WeaponFile where
  id         : String
  name       : String
  baseWeapon : Option String := none
  content    : String := ""
  createdAt  : String
  modifiedAt : String

inductive InterfaceKind where
  | res
  | menu
deriving DecidableEq, Repr

def InterfaceKind.name : InterfaceKind → String
  | .res  => "res"
  | .menu => "menu"

def InterfaceKind.all : List InterfaceKind := [.res, .menu]

/-- A layout or menu file, kept as text. -/
structure InterfaceFile where
  id         : String
  name       : String
  kind       : InterfaceKind := .res
  content    : String := ""
  createdAt  : String
  modifiedAt : String

/-- The token table of one language; `name` is shared by the languages. -/
structure LocalizationFile where
  id         : String
  name       : String
  language   : String := "english"
  tokens     : List (String × String) := []
  createdAt  : String
  modifiedAt : String

structure Project where
  metadata      : Metadata
  settings      : ProjectSettings := {}
  scripts       : List ScriptFile := []
  weapons       : List WeaponFile := []
  interfaces    : List InterfaceFile := []
  localizations : List LocalizationFile := []
  /-- The graph of a project that is a single script. -/
  nodes         : Option (List Node) := none
  connections   : Option (List Connection) := none

/-- A project with the version of its format, as it is embedded in generated code. -/
structure Envelope where
  version : String
  project : Project

namespace LocalizationFile

/-- The languages a token table can be in. -/
def languages : List String :=
  ["english", "french", "german", "italian", "japanese", "korean", "polish", "portuguese",
   "russian", "schinese", "spanish", "tchinese", "mspanish"]

/-- The name without a trailing `.txt`. -/
def baseName (f : LocalizationFile) : String :=
  let cs := f.name.toList
  if ".txt".toList.isSuffixOf cs then String.ofList (cs.take (cs.length - 4)) else f.name

end LocalizationFile

namespace Project

def isEmpty (p : Project) : Bool :=
  p.scripts.isEmpty && p.weapons.isEmpty && p.interfaces.isEmpty && p.localizations.isEmpty &&
    (p.nodes.getD []).isEmpty

/-- The script files of a project; a single graph counts as a file named `main`. -/
def scriptFiles (timestamp : String) (p : Project) : List ScriptFile :=
  if !p.scripts.isEmpty then p.scripts
  else match p.nodes.getD [] with
    | []    => []
    | nodes =>
        [{ id := "main", name := "main", nodes := nodes, connections := p.connections.getD []
           createdAt := timestamp, modifiedAt := timestamp }]

end Project

end VisualScript
