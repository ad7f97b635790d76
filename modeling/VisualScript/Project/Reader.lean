import VisualScript.Catalog.Basic
import VisualScript.Json.Reader
import VisualScript.Project.Document
import VisualScript.Script.Context
import VisualScript.Settings

/-!
# Project — Reader

Checking JSON values as parts of a project document.  A field goes by the name the editor saves it
under or by a second one; the first is preferred when both are present.
-/

namespace VisualScript

/-- What reading a document depends on besides the document. -/
structure Reading where
  settings  : Settings := {}
  /-- The time that stands in for one that is not given. -/
  timestamp : String
  /-- Whole numbers beyond the range of doubles become infinite, as in JSON text. -/
  saturate  : Bool := false

namespace Reading

open Check

/-! ### Graphs -/

def template (v : Json) : Checked PortTemplate :=
  record (fun fs =>
    PortTemplate.mk <$> field fs ["name"] text
      <*> field fs ["label"] text
      <*> fieldOr fs ["kind"] .data (choice PortKind.name PortKind.all)
      <*> fieldOr fs ["value_type"] none (nullable (choice ValueType.name ValueType.all))
      <*> fieldOr fs ["data_key"] none (nullable text)
      <*> fieldOr fs ["script_type"] none (nullable text)) v

def definition (v : Json) : Checked Definition :=
  record (fun fs =>
    Definition.mk <$> field fs ["node_type"] text
      <*> field fs ["category"] text
      <*> field fs ["label"] text
      <*> fieldOr fs ["description"] "" text
      <*> fieldOr fs ["inputs"] [] (list template)
      <*> fieldOr fs ["outputs"] [] (list template)
      <*> fieldOr fs ["default_data"] [] (table free)
      <*> fieldOr fs ["context"] [] (list (choice RunContext.name RunContext.all))
      <*> fieldOr fs ["server_only"] false bool
      <*> fieldOr fs ["client_only"] false bool
      <*> fieldOr fs ["ui_only"] false bool
      <*> fieldOr fs ["purity"] .pure (choice Purity.name Purity.all)
      <*> fieldOr fs ["var_prefix"] "v" text
      <*> fieldOr fs ["return_type"] "void" text) v

def port (v : Json) : Checked Port :=
  record (fun fs =>
    Port.mk <$> field fs ["id"] text
      <*> fieldOr fs ["label"] "" text
      <*> fieldOr fs ["type", "kind"] .data (choice PortKind.name PortKind.all)
      <*> fieldOr fs ["dataType", "value_type"] none (nullable text)
      <*> fieldOr fs ["isInput", "is_input"] true bool) v

def coordinates (r : Reading) (v : Json) : Checked Coordinates := table (float r.saturate) v

def placement (r : Reading) (v : Json) : Checked Placement := (r.coordinates v).map .at

def node (r : Reading) (v : Json) : Checked Node :=
  record (fun fs =>
    Node.mk <$> field fs ["id"] text
      <*> field fs ["type", "node_type"] text
      <*> fieldOr fs ["category"] none (nullable text)
      <*> fieldOr fs ["label"] "" text
      <*> fieldOr fs ["position"] .unplaced r.placement
      <*> fieldOr fs ["data"] [] (table free)
      <*> fieldOr fs ["inputs"] [] (list port)
      <*> fieldOr fs ["outputs"] [] (list port)) v

def endpoint (v : Json) : Checked Endpoint :=
  record (fun fs =>
    Endpoint.mk <$> field fs ["nodeId", "node_id"] text
      <*> field fs ["portId", "port_id"] text) v

def connection (v : Json) : Checked Connection :=
  record (fun fs =>
    Connection.mk <$> field fs ["id"] text
      <*> field fs ["from", "source"] endpoint
      <*> field fs ["to", "target"] endpoint) v

def context (v : Json) : Checked ScriptContext :=
  record (fun fs =>
    ScriptContext.mk <$> fieldOr fs ["server"] false bool
      <*> fieldOr fs ["client"] false bool
      <*> fieldOr fs ["ui"] false bool) v

/-! ### Documents -/

def metadata (r : Reading) (v : Json) : Checked Metadata :=
  record (fun fs =>
    Metadata.mk <$> fieldOr fs ["name"] "Untitled Project" text
      <*> fieldOr fs ["version"] "1.0.0" text
      <*> fieldOr fs ["description"] "" text
      <*> fieldOr fs ["author"] "" text
      <*> fieldOr fs ["createdAt", "created_at"] r.timestamp text
      <*> fieldOr fs ["modifiedAt", "modified_at"] r.timestamp text
      <*> fieldOr fs ["editorVersion", "editor_version"] r.settings.editorVersion text) v

def localizationEntry (v : Json) : Checked LocalizationEntry :=
  record (fun fs =>
    LocalizationEntry.mk <$> field fs ["path"] text
      <*> fieldOr fs ["enabled"] true bool) v

def modSettings (v : Json) : Checked ModSettings :=
  let d : ModSettings := {}
  record (fun fs =>
    ModSettings.mk <$> fieldOr fs ["modId", "mod_id"] d.id text
      <*> fieldOr fs ["modName", "mod_name"] d.name text
      <*> fieldOr fs ["modDescription", "mod_description"] d.description text
      <*> fieldOr fs ["modVersion", "mod_version"] d.version text
      <*> fieldOr fs ["modAuthor", "mod_author"] d.author text
      <*> fieldOr fs ["localizationFiles", "localization_files"] [] (list localizationEntry)) v

/-- The keys of the project settings, each field with its two names. -/
def projectSettingsKeys : List (List String) :=
  [["canvasPosition", "canvas_position"], ["canvasZoom", "canvas_zoom"],
   ["activeScriptFile", "active_script_file"], ["folders"], ["mod"]]

/-- The entries no field of the project settings was read from. -/
def extraSettings (fs : Fields) : Fields :=
  let used := projectSettingsKeys.filterMap fun keys => (find? fs keys).map Prod.fst
  Json.distinctEntries (fs.filter fun (k, _) => !used.contains k)

def projectSettings (r : Reading) (v : Json) : Checked ProjectSettings :=
  record (fun fs =>
    ProjectSettings.mk
      <$> fieldOr fs ["canvasPosition", "canvas_position"] .unplaced r.placement
      <*> fieldOr fs ["canvasZoom", "canvas_zoom"] (.ofInt 1) (float r.saturate)
      <*> fieldOr fs ["activeScriptFile", "active_script_file"] none (nullable text)
      <*> fieldOr fs ["folders"] [] (list text)
      <*> fieldOr fs ["mod"] none (nullable modSettings)
      <*> .valid (extraSettings fs)) v

def scriptFile (r : Reading) (v : Json) : Checked ScriptFile :=
  record (fun fs =>
    ScriptFile.mk <$> field fs ["id"] text
      <*> field fs ["name"] text
      <*> fieldOr fs ["nodes"] [] (list r.node)
      <*> fieldOr fs ["connections"] [] (list connection)
      <*> fieldOr fs ["createdAt", "created_at"] r.timestamp text
      <*> fieldOr fs ["modifiedAt", "modified_at"] r.timestamp text) v

def weaponFile (r : Reading) (v : Json) : Checked WeaponFile :=
  record (fun fs =>
    WeaponFile.mk <$> field fs ["id"] text
      <*> field fs ["name"] text
      <*> fieldOr fs ["baseWeapon", "base_weapon"] none (nullable text)
      <*> fieldOr fs ["content"] "" text
      <*> fieldOr fs ["createdAt", "created_at"] r.timestamp text
      <*> fieldOr fs ["modifiedAt", "modified_at"] r.timestamp text) v

def interfaceFile (r : Reading) (v : Json) : Checked InterfaceFile :=
  record (fun fs =>
    InterfaceFile.mk <$> field fs ["id"] text
      <*> field fs ["name"] text
      <*> fieldOr fs ["fileType", "file_type"] .res (choice InterfaceKind.name InterfaceKind.all)
      <*> fieldOr fs ["content"] "" text
      <*> fieldOr fs ["createdAt", "created_at"] r.timestamp text
      <*> fieldOr fs ["modifiedAt", "modified_at"] r.timestamp text) v

/-- A language the game knows. -/
def language (v : Json) : Checked String :=
  (text v).andThen fun s =>
    if LocalizationFile.languages.contains s then .valid s
    else
      let known := ", ".intercalate (LocalizationFile.languages.map fun l => "'" ++ l ++ "'")
      .fail (.rejected ("language '" ++ s ++ "' not in [" ++ known ++ "]"))

def localizationFile (r : Reading) (v : Json) : Checked LocalizationFile :=
  record (fun fs =>
    LocalizationFile.mk <$> field fs ["id"] text
      <*> field fs ["name"] text
      <*> fieldOr fs ["language"] "english" language
      <*> fieldOr fs ["tokens"] [] (table text)
      <*> fieldOr fs ["createdAt", "created_at"] r.timestamp text
      <*> fieldOr fs ["modifiedAt", "modified_at"] r.timestamp text) v

/-- The metadata of a project that has none. -/
def defaultMetadata (r : Reading) : Metadata :=
  { name := "Untitled Project", version := "1.0.0", description := "", author := ""
    createdAt := r.timestamp, modifiedAt := r.timestamp
    editorVersion := r.settings.editorVersion }

def project (r : Reading) (v : Json) : Checked Project :=
  record (fun fs =>
    Project.mk <$> fieldOr fs ["metadata"] r.defaultMetadata r.metadata
      <*> fieldOr fs ["settings"] {} r.projectSettings
      <*> fieldOr fs ["scriptFiles", "script_files"] [] (list r.scriptFile)
      <*> fieldOr fs ["weaponFiles", "weapon_files"] [] (list r.weaponFile)
      <*> fieldOr fs ["uiFiles", "ui_files"] [] (list r.interfaceFile)
      <*> fieldOr fs ["localizationFiles", "localization_files"] [] (list r.localizationFile)
      <*> fieldOr fs ["nodes"] none (nullable (list r.node))
      <*> fieldOr fs ["connections"] none (nullable (list connection))) v

def envelope (r : Reading) (v : Json) : Checked Envelope :=
  record (fun fs =>
    Envelope.mk <$> fieldOr fs ["version"] r.settings.formatVersion text
      <*> field fs ["data"] r.project) v

/-! ### JSON text -/

/-- The limits of JSON text. -/
def limits : Json.Limits := ⟨200, Number.maxDigits⟩

/-- Reads JSON text and checks its value. -/
def ofText {α : Type} (r : Reading) (check : Reading → Json → Checked α) (text : String) :
    Checked α :=
  match Json.read? limits text with
  | some v => check { r with saturate := true } v
  | none   => .fail .badJson

end Reading

end VisualScript
