import VisualScript.Json.Writer
import VisualScript.Project.Document
import VisualScript.Script.Context

/-!
# Project — Writer

The parts of a project document as JSON values, with the names the editor saves them under and in
a fixed order.  What has coordinates takes the `zero` by which those that nobody gave are written;
in JSON text it is a double.  Values that the document only passes on must not nest too deep.
-/

namespace VisualScript

/-- A text, or null. -/
def Json.ofText? : Option String → Json
  | some s => .str s
  | none   => .null

def PortTemplate.toJson (t : PortTemplate) : Json :=
  .obj [("name", .str t.name), ("label", .str t.label), ("kind", .str t.kind.name),
    ("value_type", .ofText? (t.valueType.map (·.name))), ("data_key", .ofText? t.dataKey),
    ("script_type", .ofText? t.scriptType)]

def Definition.toJson (d : Definition) : Json :=
  .obj [("node_type", .str d.nodeType), ("category", .str d.category), ("label", .str d.label),
    ("description", .str d.description), ("inputs", .arr (d.inputs.map (·.toJson))),
    ("outputs", .arr (d.outputs.map (·.toJson))), ("default_data", .obj d.defaults),
    ("context", .arr (d.contexts.map fun c => .str c.name)), ("server_only", .bool d.serverOnly),
    ("client_only", .bool d.clientOnly), ("ui_only", .bool d.uiOnly),
    ("purity", .str d.purity.name), ("var_prefix", .str d.varStem),
    ("return_type", .str d.returnType)]

def Port.toJson (p : Port) : Json :=
  .obj [("id", .str p.id), ("label", .str p.label), ("type", .str p.kind.name),
    ("dataType", .ofText? p.valueType), ("isInput", .bool p.isInput)]

def Node.toJson (zero : Json) (n : Node) : Json :=
  .obj [("id", .str n.id), ("type", .str n.nodeType), ("category", .ofText? n.category),
    ("label", .str n.label), ("position", n.position.toJson zero), ("data", .obj n.data),
    ("inputs", .arr (n.inputs.map (·.toJson))), ("outputs", .arr (n.outputs.map (·.toJson)))]

def Endpoint.toJson (e : Endpoint) : Json := .obj [("nodeId", .str e.node), ("portId", .str e.port)]

def Connection.toJson (c : Connection) : Json :=
  .obj [("id", .str c.id), ("from", c.source.toJson), ("to", c.target.toJson)]

def ScriptContext.toJson (c : ScriptContext) : Json :=
  .obj [("server", .bool c.server), ("client", .bool c.client), ("ui", .bool c.ui)]

def Metadata.toJson (m : Metadata) : Json :=
  .obj [("name", .str m.name), ("version", .str m.version), ("description", .str m.description),
    ("author", .str m.author), ("createdAt", .str m.createdAt), ("modifiedAt", .str m.modifiedAt),
    ("editorVersion", .str m.editorVersion)]

def LocalizationEntry.toJson (e : LocalizationEntry) : Json :=
  .obj [("path", .str e.path), ("enabled", .bool e.enabled)]

def ModSettings.toJson (m : ModSettings) : Json :=
  .obj [("modId", .str m.id), ("modName", .str m.name), ("modDescription", .str m.description),
    ("modVersion", .str m.version), ("modAuthor", .str m.author),
    ("localizationFiles", .arr (m.localizations.map (·.toJson)))]

def ProjectSettings.toJson (zero : Json) (s : ProjectSettings) : Json :=
  .obj ([("canvasPosition", s.canvasPosition.toJson zero), ("canvasZoom", .float s.canvasZoom),
    ("activeScriptFile", .ofText? s.activeScript), ("folders", .arr (s.folders.map .str)),
    ("mod", match s.mod with
      | some m => m.toJson
      | none   => .null)] ++ s.extra)

def ScriptFile.toJson (zero : Json) (f : ScriptFile) : Json :=
  .obj [("id", .str f.id), ("name", .str f.name), ("nodes", .arr (f.nodes.map (·.toJson zero))),
    ("connections", .arr (f.connections.map (·.toJson))), ("createdAt", .str f.createdAt),
    ("modifiedAt", .str f.modifiedAt)]

def WeaponFile.toJson (f : WeaponFile) : Json :=
  .obj [("id", .str f.id), ("name", .str f.name), ("baseWeapon", .ofText? f.baseWeapon),
    ("content", .str f.content), ("createdAt", .str f.createdAt), ("modifiedAt", .str f.modifiedAt)]

def InterfaceFile.toJson (f : InterfaceFile) : Json :=
  .obj [("id", .str f.id), ("name", .str f.name), ("fileType", .str f.kind.name),
    ("content", .str f.content), ("createdAt", .str f.createdAt), ("modifiedAt", .str f.modifiedAt)]

def LocalizationFile.toJson (f : LocalizationFile) : Json :=
  .obj [("id", .str f.id), ("name", .str f.name), ("language", .str f.language),
    ("tokens", .obj (f.tokens.map fun (k, v) => (k, .str v))), ("createdAt", .str f.createdAt),
    ("modifiedAt", .str f.modifiedAt)]

def Project.toJson (zero : Json) (p : Project) : Json :=
  let listOf {α : Type} (toJson : α → Json) : Option (List α) → Json
    | some xs => .arr (xs.map toJson)
    | none    => .null
  .obj [("metadata", p.metadata.toJson), ("settings", p.settings.toJson zero),
    ("scriptFiles", .arr (p.scripts.map (·.toJson zero))),
    ("weaponFiles", .arr (p.weapons.map (·.toJson))),
    ("uiFiles", .arr (p.interfaces.map (·.toJson))),
    ("localizationFiles", .arr (p.localizations.map (·.toJson))),
    ("nodes", listOf (Node.toJson zero) p.nodes),
    ("connections", listOf Connection.toJson p.connections)]

def Envelope.toJson (zero : Json) (e : Envelope) : Json :=
  .obj [("version", .str e.version), ("data", e.project.toJson zero)]

/-! ### Nesting -/

/-- How deep a value that is only passed on may nest. -/
def Json.maxDepth : Nat := 255

/-- Whether the values of a table do not nest too deep. -/
def Json.areShallow (entries : List (String × Json)) : Bool :=
  entries.all fun (_, v) => v.depth ≤ maxDepth

def Definition.isWritable (d : Definition) : Bool := Json.areShallow d.defaults

def Node.isWritable (n : Node) : Bool := Json.areShallow n.data

def ProjectSettings.isWritable (s : ProjectSettings) : Bool := Json.areShallow s.extra

def ScriptFile.isWritable (f : ScriptFile) : Bool := f.nodes.all (·.isWritable)

/-- Whether no value in a project nests too deep to be written. -/
def Project.isWritable (p : Project) : Bool :=
  p.settings.isWritable && p.scripts.all (·.isWritable) && (p.nodes.getD []).all (·.isWritable)

/-! ### JSON text -/

/-- The JSON text of a project. -/
def Project.text (p : Project) : String := (p.toJson (.float (.zero false))).write

/-- The JSON text of a project with the version of its format. -/
def Envelope.text (e : Envelope) : String := (e.toJson (.float (.zero false))).write

end VisualScript
