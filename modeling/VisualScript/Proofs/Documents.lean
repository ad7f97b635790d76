import VisualScript.Project.Reader
import VisualScript.Project.Writer
import VisualScript.Proofs.Checks
import VisualScript.Proofs.JsonText

/-!
# Proofs — Documents

What checking makes of a project that was written and read.  The doubles of its own fields have to
be finite (`isFinite`), because null is no double; in the values it only passes on, those that are
not finite have become null (`restored`).  Every part of a sound project (`Sound`) comes back in this
way, one lemma for each kind of part, and so does the whole (`Reading.envelope_restored`).
-/

namespace VisualScript

open Check

/-! ### What comes back -/

/-- The coordinates nobody gave, in JSON text. -/
abbrev Json.zero : Json := .float (.zero false)

namespace Placement

/-- Whether every coordinate is finite. -/
def isFinite (p : Placement) : Bool := p.coordinates.all fun e => e.2.isFinite

/-- The placement as it comes back: a thing that nobody put anywhere has been put at the origin. -/
def restored (p : Placement) : Placement := .at p.coordinates

structure Sound (p : Placement) : Prop where
  axes : (Assoc.keys p.coordinates).Nodup
  canonical : ∀ e ∈ p.coordinates, e.2.Canonical

end Placement

namespace Node

def isFinite (n : Node) : Bool := n.position.isFinite

def restored (n : Node) : Node :=
  { n with position := n.position.restored, data := Json.restoredEntries n.data }

structure Sound (n : Node) : Prop where
  position : n.position.Sound
  data : (Json.obj n.data).Sound

end Node

namespace ScriptFile

def isFinite (f : ScriptFile) : Bool := f.nodes.all Node.isFinite

def restored (f : ScriptFile) : ScriptFile := { f with nodes := f.nodes.map Node.restored }

end ScriptFile

namespace ProjectSettings

def isFinite (s : ProjectSettings) : Bool := s.canvasPosition.isFinite && s.canvasZoom.isFinite

def restored (s : ProjectSettings) : ProjectSettings :=
  { s with canvasPosition := s.canvasPosition.restored, extra := Json.restoredEntries s.extra }

/-- The keys under which the fields are saved. -/
def fieldKeys : List String :=
  ["canvasPosition", "canvasZoom", "activeScriptFile", "folders", "mod"]

structure Sound (s : ProjectSettings) : Prop where
  canvasPosition : s.canvasPosition.Sound
  canvasZoom : s.canvasZoom.Canonical
  extra : (Json.obj s.extra).Sound
  unknown : ∀ key ∈ Assoc.keys s.extra, key ∉ fieldKeys

end ProjectSettings

structure LocalizationFile.Sound (f : LocalizationFile) : Prop where
  language : f.language ∈ languages
  tokens : (Assoc.keys f.tokens).Nodup

namespace Project

/-- Whether every double in a field of the project is finite. -/
def isFinite (p : Project) : Bool :=
  p.settings.isFinite && p.scripts.all ScriptFile.isFinite && (p.nodes.getD []).all Node.isFinite

/-- The project as it comes back: doubles that are not finite have become null in the values that
it only passes on. -/
def restored (p : Project) : Project :=
  { p with
    settings := p.settings.restored
    scripts := p.scripts.map ScriptFile.restored
    nodes := p.nodes.map (·.map Node.restored) }

/-- What holds of every project that was read or built up in an editor. -/
structure Sound (p : Project) : Prop where
  settings : p.settings.Sound
  scripts : ∀ f ∈ p.scripts, ∀ n ∈ f.nodes, n.Sound
  localizations : ∀ f ∈ p.localizations, f.Sound
  nodes : ∀ n ∈ p.nodes.getD [], n.Sound

end Project

/-! ### The JSON value that comes back -/

section

attribute [local simp] Json.restored Json.restoredEntries Json.restoredItems_eq_map

@[simp] theorem Json.restored_ofText? (o : Option String) :
    (Json.ofText? o).restored = Json.ofText? o := by
  cases o <;> rfl

theorem Placement.toJson_zero (p : Placement) :
    p.toJson Json.zero = .obj (p.coordinates.map fun e => (e.1, .float e.2)) := by
  cases p <;> rfl

/-- The fields of the settings as they come back. -/
def ProjectSettings.savedFields (s : ProjectSettings) : Fields :=
  [("canvasPosition", (s.canvasPosition.toJson Json.zero).restored),
   ("canvasZoom", (Json.float s.canvasZoom).restored),
   ("activeScriptFile", Json.ofText? s.activeScript),
   ("folders", .arr (s.folders.map .str)),
   ("mod", match s.mod with
      | some m => m.toJson.restored
      | none   => .null)]

theorem ProjectSettings.restored_toJson (s : ProjectSettings) :
    (s.toJson Json.zero).restored = .obj (s.savedFields ++ Json.restoredEntries s.extra) := by
  cases hmod : s.mod <;>
    simp [ProjectSettings.toJson, savedFields, Json.restoredEntries_eq_map, hmod]

/-- The fields of a project as they come back. -/
def Project.savedFields (p : Project) : Fields :=
  [("metadata", p.metadata.toJson.restored),
   ("settings", (p.settings.toJson Json.zero).restored),
   ("scriptFiles", (Json.arr (p.scripts.map (·.toJson Json.zero))).restored),
   ("weaponFiles", (Json.arr (p.weapons.map (·.toJson))).restored),
   ("uiFiles", (Json.arr (p.interfaces.map (·.toJson))).restored),
   ("localizationFiles", (Json.arr (p.localizations.map (·.toJson))).restored),
   ("nodes", match p.nodes with
      | some ns => (Json.arr (ns.map (·.toJson Json.zero))).restored
      | none    => .null),
   ("connections", match p.connections with
      | some cs => (Json.arr (cs.map (·.toJson))).restored
      | none    => .null)]

theorem Project.restored_toJson (p : Project) :
    (p.toJson Json.zero).restored = .obj p.savedFields := by
  cases hnodes : p.nodes <;> cases hconnections : p.connections <;>
    simp [Project.toJson, savedFields, hnodes, hconnections]

end

/-! ### Checks of what comes back -/

namespace Reading

attribute [local simp] Json.restored Json.restoredEntries Json.restoredItems_eq_map value?_field
  value?_fieldOr find? List.lookup_cons

variable {α β : Type} (r : Reading)

@[simp] theorem value?_nullable_text (o : Option String) :
    (nullable text (Json.ofText? o)).value? = some o := by
  cases o <;> rfl

@[simp] theorem value?_kind (k : PortKind) :
    (choice PortKind.name PortKind.all (.str k.name)).value? = some k := by
  cases k <;> rfl

@[simp] theorem value?_interfaceKind (k : InterfaceKind) :
    (choice InterfaceKind.name InterfaceKind.all (.str k.name)).value? = some k := by
  cases k <;> rfl

/-- A list of things that all come back. -/
theorem value?_list_restored {check : Json → Checked β} {toJson : α → Json} {result : α → β}
    {xs : List α} (h : ∀ x ∈ xs, (check (toJson x).restored).value? = some (result x)) :
    (list check (Json.arr (xs.map toJson)).restored).value? = some (xs.map result) := by
  have hlist := @value?_list α β check (fun x => (toJson x).restored) (fun _ => true) result xs
    fun x hx => by rw [h x hx]; rfl
  simpa [Function.comp_def] using hlist

theorem port_restored (p : Port) : (Reading.port p.toJson.restored).value? = some p := by
  simp [Reading.port, Port.toJson]

theorem endpoint_restored (e : Endpoint) :
    (Reading.endpoint e.toJson.restored).value? = some e := by
  simp [Reading.endpoint, Endpoint.toJson]

theorem connection_restored (c : Connection) :
    (Reading.connection c.toJson.restored).value? = some c := by
  simp [Reading.connection, Connection.toJson, endpoint_restored]

theorem metadata_restored (m : Metadata) : (r.metadata m.toJson.restored).value? = some m := by
  simp [Reading.metadata, Metadata.toJson]

theorem localizationEntry_restored (e : LocalizationEntry) :
    (Reading.localizationEntry e.toJson.restored).value? = some e := by
  simp [Reading.localizationEntry, LocalizationEntry.toJson]

theorem weaponFile_restored (f : WeaponFile) :
    (r.weaponFile f.toJson.restored).value? = some f := by
  simp [Reading.weaponFile, WeaponFile.toJson]

theorem interfaceFile_restored (f : InterfaceFile) :
    (r.interfaceFile f.toJson.restored).value? = some f := by
  simp [Reading.interfaceFile, InterfaceFile.toJson]

theorem modSettings_restored (m : ModSettings) :
    (Reading.modSettings m.toJson.restored).value? = some m := by
  have hlist := value?_list_restored fun e (_ : e ∈ m.localizations) => localizationEntry_restored e
  simp only [Json.restored] at hlist
  simp [Reading.modSettings, ModSettings.toJson, -Json.restoredItems_eq_map, hlist]

/-- A table of things that are each restored or refused. -/
theorem value?_table_restored {check : Json → Checked β} {toJson : α → Json} {accepts : α → Bool}
    {result : α → β} {es : List (String × α)} (hk : (Assoc.keys es).Nodup)
    (h : ∀ e ∈ es, (check (toJson e.2).restored).value? =
      if accepts e.2 then some (result e.2) else none) :
    (table check (.obj (Json.restoredEntries (es.map fun e => (e.1, toJson e.2))))).value? =
      if es.all (fun e => accepts e.2) then some (es.map fun e => (e.1, result e.2)) else none := by
  rw [Json.restoredEntries_eq_map, List.map_map]
  exact @value?_table _ _ check (fun a => (toJson a).restored) accepts result es hk h

theorem localizationFile_restored {f : LocalizationFile} (h : f.Sound) :
    (r.localizationFile f.toJson.restored).value? = some f := by
  have htokens : (table text (.obj (Json.restoredEntries
      (f.tokens.map fun e => (e.1, Json.str e.2))))).value? = some f.tokens := by
    have := @value?_table_restored _ _ text Json.str (fun _ => true) id f.tokens h.tokens
      fun e _ => by simp
    simpa using this
  have hlanguage : (Reading.language (.str f.language)).value? = some f.language := by
    simp [Reading.language, h.language]
  simp [Reading.localizationFile, LocalizationFile.toJson, htokens, hlanguage]

/-- Values that are only passed on come back without their doubles that are not finite. -/
theorem value?_free_restored {es : List (String × Json)} (h : (Json.obj es).Sound) :
    (table free (.obj (Json.restoredEntries es))).value? = some (Json.restoredEntries es) := by
  have := @value?_table_restored _ _ free id (fun _ => true) Json.restored es h.1 fun e he => by
    simp [free, Json.distinct_restored (Json.soundEntries_iff.mp h.2 e he)]
  simpa [Json.restoredEntries_eq_map] using this

theorem value?_float_restored (saturate : Bool) (x : Binary64) :
    (Check.float saturate (Json.float x).restored).value? =
      if x.isFinite then some x else none := by
  rw [Json.restored]
  cases x.isFinite <;> rfl

theorem placement_restored {p : Placement} (h : p.Sound) :
    (r.placement (p.toJson Json.zero).restored).value? =
      if p.isFinite then some p.restored else none := by
  have htable := @value?_table_restored _ _ (Check.float r.saturate) Json.float Binary64.isFinite id
    p.coordinates h.axes fun e _ => value?_float_restored r.saturate e.2
  rw [Placement.toJson_zero, Json.restored, Reading.placement, Reading.coordinates,
    Checked.value?_map, htable, Placement.isFinite]
  split
  · simp [Placement.restored]
  · rfl

theorem node_restored {n : Node} (h : n.Sound) :
    (r.node (n.toJson Json.zero).restored).value? =
      if n.isFinite then some n.restored else none := by
  have hinputs := value?_list_restored fun p (_ : p ∈ n.inputs) => port_restored p
  have houtputs := value?_list_restored fun p (_ : p ∈ n.outputs) => port_restored p
  have hposition := placement_restored r h.position
  have hdata := value?_free_restored h.data
  rw [Json.restored] at hinputs houtputs
  rw [Node.isFinite]
  by_cases hfinite : n.position.isFinite = true
  · rw [if_pos hfinite] at hposition ⊢
    simp [Reading.node, Node.toJson, Node.restored, -Json.restoredItems_eq_map, hinputs, houtputs,
      hposition, hdata]
  · rw [if_neg hfinite] at hposition ⊢
    simp [Reading.node, Node.toJson, -Json.restoredItems_eq_map, hinputs, houtputs, hposition,
      hdata]

/-- A list of nodes comes back if their coordinates are finite. -/
theorem nodes_restored {ns : List Node} (h : ∀ n ∈ ns, n.Sound) :
    (list r.node (Json.arr (ns.map (·.toJson Json.zero))).restored).value? =
      if ns.all Node.isFinite then some (ns.map Node.restored) else none := by
  rw [Json.restored, Json.restoredItems_eq_map, List.map_map]
  exact value?_list fun n hn => node_restored r (h n hn)

theorem scriptFile_restored {f : ScriptFile} (h : ∀ n ∈ f.nodes, n.Sound) :
    (r.scriptFile (f.toJson Json.zero).restored).value? =
      if f.isFinite then some f.restored else none := by
  have hnodes := nodes_restored r h
  have hconnections := value?_list_restored fun c (_ : c ∈ f.connections) => connection_restored c
  rw [Json.restored] at hnodes hconnections
  rw [ScriptFile.isFinite]
  by_cases hfinite : f.nodes.all Node.isFinite = true
  · rw [if_pos hfinite] at hnodes ⊢
    simp [Reading.scriptFile, ScriptFile.toJson, ScriptFile.restored, -Json.restoredItems_eq_map,
      hnodes, hconnections]
  · rw [if_neg hfinite] at hnodes ⊢
    simp [Reading.scriptFile, ScriptFile.toJson, -Json.restoredItems_eq_map, hnodes, hconnections]

/-- Each field of the settings is found, whatever other keys there are. -/
theorem find?_settings {s : ProjectSettings} (h : s.Sound) {key : String} {v : Json}
    (hkey : key ∈ ProjectSettings.fieldKeys) (hv : s.savedFields.reverse.lookup key = some v)
    (others : List String) :
    find? (s.savedFields ++ Json.restoredEntries s.extra) (key :: others) = some (key, v) := by
  refine find?_append (fun hmem => ?_) hv others
  rw [Json.keys_restoredEntries] at hmem
  exact h.unknown key hmem hkey

theorem extraSettings_restored {s : ProjectSettings} (h : s.Sound) :
    Reading.extraSettings (s.savedFields ++ Json.restoredEntries s.extra) =
      Json.restoredEntries s.extra := by
  have hused : (Reading.projectSettingsKeys.filterMap fun keys =>
      (find? (s.savedFields ++ Json.restoredEntries s.extra) keys).map Prod.fst) =
        ProjectSettings.fieldKeys := by
    have hname {key : String} {v : Json} (hkey : key ∈ ProjectSettings.fieldKeys)
        (hv : s.savedFields.reverse.lookup key = some v) (others : List String) :
        (find? (s.savedFields ++ Json.restoredEntries s.extra) (key :: others)).map Prod.fst =
          some key := by
      rw [find?_settings h hkey hv]
      rfl
    have hposition := @hname "canvasPosition" _ (by decide) rfl ["canvas_position"]
    have hzoom := @hname "canvasZoom" _ (by decide) rfl ["canvas_zoom"]
    have hactive := @hname "activeScriptFile" _ (by decide) rfl ["active_script_file"]
    have hfolders := @hname "folders" _ (by decide) rfl []
    have hmod := @hname "mod" _ (by decide) rfl []
    simp only [Reading.projectSettingsKeys, List.filterMap_cons, List.filterMap_nil, hposition,
      hzoom, hactive, hfolders, hmod, ProjectSettings.fieldKeys]
  have hfixed : s.savedFields.filter (fun e => !ProjectSettings.fieldKeys.contains e.1) = [] := by
    rfl
  have hextra : (Json.restoredEntries s.extra).filter
      (fun e => !ProjectSettings.fieldKeys.contains e.1) = Json.restoredEntries s.extra := by
    refine List.filter_eq_self.mpr fun e he => ?_
    have hmem : e.1 ∈ Assoc.keys s.extra := by
      rw [← Json.keys_restoredEntries]
      exact List.mem_map_of_mem he
    simpa using h.unknown e.1 hmem
  rw [Reading.extraSettings]
  simp only [hused]
  rw [List.filter_append, hfixed, hextra, List.nil_append, Json.distinctEntries,
    Json.distinctValues_restored h.extra.2, Assoc.merge_nil]
  rw [Json.keys_restoredEntries]
  exact h.extra.1

theorem projectSettings_restored {s : ProjectSettings} (h : s.Sound) :
    (r.projectSettings (s.toJson Json.zero).restored).value? =
      if s.isFinite then some s.restored else none := by
  rw [ProjectSettings.restored_toJson]
  have hposition := placement_restored r h.canvasPosition
  have hzoom := value?_float_restored r.saturate s.canvasZoom
  have hfolders : (list text (.arr (s.folders.map .str))).value? = some s.folders := by
    simpa using @value?_list _ _ text .str (fun _ => true) id s.folders fun f _ => rfl
  have hmod : (nullable Reading.modSettings (match s.mod with
      | some m => m.toJson.restored
      | none   => Json.null)).value? = some s.mod := by
    cases s.mod with
    | none => rfl
    | some m =>
      rw [value?_nullable (by simp [ModSettings.toJson]), modSettings_restored]
      rfl
  have hfind := @find?_settings s h
  rw [Reading.projectSettings, value?_record]
  simp only [Checked.value?_seq, Checked.value?_functor, value?_fieldOr]
  rw [@hfind "canvasPosition" _ (by decide) rfl, @hfind "canvasZoom" _ (by decide) rfl,
    @hfind "activeScriptFile" _ (by decide) rfl, @hfind "folders" _ (by decide) rfl,
    @hfind "mod" _ (by decide) rfl]
  simp only [Option.elim, hposition, hzoom, hfolders, hmod, value?_nullable_text,
    extraSettings_restored h]
  rw [ProjectSettings.isFinite]
  cases s.canvasPosition.isFinite <;> cases s.canvasZoom.isFinite <;> rfl

theorem project_restored {p : Project} (h : p.Sound) :
    (r.project (p.toJson Json.zero).restored).value? =
      if p.isFinite then some p.restored else none := by
  have hscripts : (list r.scriptFile
      (Json.arr (p.scripts.map (·.toJson Json.zero))).restored).value? =
        if p.scripts.all ScriptFile.isFinite then some (p.scripts.map ScriptFile.restored)
        else none := by
    rw [Json.restored, Json.restoredItems_eq_map, List.map_map]
    exact value?_list fun f hf => scriptFile_restored r (h.scripts f hf)
  have hweapons := value?_list_restored fun f (_ : f ∈ p.weapons) => weaponFile_restored r f
  have hinterfaces :=
    value?_list_restored fun f (_ : f ∈ p.interfaces) => interfaceFile_restored r f
  have hlocalizations := value?_list_restored fun f (hf : f ∈ p.localizations) =>
    localizationFile_restored r (h.localizations f hf)
  have hnodes : (nullable (list r.node) (match p.nodes with
      | some ns => (Json.arr (ns.map (·.toJson Json.zero))).restored
      | none    => .null)).value? =
        if (p.nodes.getD []).all Node.isFinite then some (p.nodes.map (·.map Node.restored))
        else none := by
    cases hp : p.nodes with
    | none => rfl
    | some ns =>
      have hns := @nodes_restored r ns (by simpa [hp] using h.nodes)
      simp only [value?_nullable (show (Json.arr _).restored ≠ .null by simp), hns,
        Option.getD_some]
      split <;> rfl
  have hconnections : (nullable (list Reading.connection) (match p.connections with
      | some cs => (Json.arr (cs.map (·.toJson))).restored
      | none    => .null)).value? = some p.connections := by
    cases p.connections with
    | none => rfl
    | some cs =>
      have hcs := value?_list_restored fun c (_ : c ∈ cs) => connection_restored c
      simp only [value?_nullable (show (Json.arr _).restored ≠ .null by simp), hcs]
      simp
  have hfind {key : String} {v : Json} (hv : p.savedFields.reverse.lookup key = some v)
      (others : List String) : find? p.savedFields (key :: others) = some (key, v) := by
    simpa using @find?_append p.savedFields [] key v (by simp [Assoc.keys]) hv others
  rw [Project.restored_toJson, Reading.project, value?_record]
  simp only [Checked.value?_seq, Checked.value?_functor, value?_fieldOr]
  rw [@hfind "metadata" _ rfl, @hfind "settings" _ rfl, @hfind "scriptFiles" _ rfl,
    @hfind "weaponFiles" _ rfl, @hfind "uiFiles" _ rfl, @hfind "localizationFiles" _ rfl,
    @hfind "nodes" _ rfl, @hfind "connections" _ rfl]
  simp only [Option.elim, metadata_restored, projectSettings_restored r h.settings, hscripts,
    hweapons, hinterfaces, hlocalizations, hnodes, hconnections, Project.isFinite]
  by_cases hs : p.settings.isFinite = true <;>
    by_cases hf : p.scripts.all ScriptFile.isFinite = true <;>
    by_cases hn : (p.nodes.getD []).all Node.isFinite = true <;>
    simp only [hs, hf, hn, Project.restored] <;> simp

theorem envelope_restored {e : Envelope} (h : e.project.Sound) :
    (r.envelope (e.toJson Json.zero).restored).value? =
      if e.project.isFinite then some ⟨e.version, e.project.restored⟩ else none := by
  have hproject := project_restored r h
  by_cases hfinite : e.project.isFinite = true
  · rw [if_pos hfinite] at hproject ⊢
    simp [Reading.envelope, Envelope.toJson, hproject]
  · rw [if_neg hfinite] at hproject ⊢
    simp [Reading.envelope, Envelope.toJson, hproject]

end Reading

end VisualScript
