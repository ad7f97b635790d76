import VisualScript.Catalog.Basic

/-!
# Catalog — Builtin

The node types that come with the editor.
-/

namespace VisualScript.Catalog.Builtin

def exec (name label : String) : PortTemplate := { name := name, label := label, kind := .exec }

def data (name label : String) (type : ValueType) : PortTemplate :=
  { name := name, label := label, valueType := some type }

/-- The port takes its value from another payload key than its name. -/
def keyed (key : String) (t : PortTemplate) : PortTemplate := { t with dataKey := some key }

/-- The port hands over an event parameter of the given script type. -/
def typed (type : String) (t : PortTemplate) : PortTemplate := { t with scriptType := some type }

def execIn : PortTemplate := exec "exec" "In"

def andThen : PortTemplate := exec "then" "Out"

/-- A node that acts and passes control on. -/
def action (nodeType category label : String) (inputs : List PortTemplate) : Definition :=
  { nodeType := nodeType, category := category, label := label
    inputs := execIn :: inputs, outputs := [andThen], purity := .impure }

/-- A node that only produces a value, without side effects unless said otherwise. -/
def getter (nodeType category label : String) (inputs : List PortTemplate) (output : PortTemplate) :
    Definition :=
  { nodeType := nodeType, category := category, label := label
    inputs := inputs, outputs := [output] }

/-- A literal of a given type. -/
def constant (nodeType label : String) (type : ValueType) (value : Json) : Definition :=
  { nodeType := nodeType, category := "data", label := label
    description := type.name ++ " literal"
    outputs := [data "value" "Value" type]
    defaults := [("value", value)], purity := .constant }

/-- Entry nodes: start-up and events. -/
def entries : List Definition :=
  [{ nodeType := "init-server", category := "core-flow", label := "Init: Server"
     description := "Server initialization (#if SERVER)"
     outputs := [andThen]
     defaults := [("functionName", .str "")]
     contexts := [.server] },
   { nodeType := "init-client", category := "core-flow", label := "Init: Client"
     description := "Client initialization (#if CLIENT)"
     outputs := [andThen]
     defaults := [("functionName", .str "")]
     contexts := [.client] },
   { nodeType := "init-ui", category := "core-flow", label := "Init: UI"
     description := "UI initialization (#if UI)"
     outputs := [andThen]
     defaults := [("functionName", .str "")]
     contexts := [.ui] },
   { nodeType := "event", category := "events", label := "Event: Custom"
     description := "Custom event/callback function"
     outputs := [andThen]
     defaults := [("functionName", .str "CustomEvent")] },
   { nodeType := "on-weapon-activate", category := "events", label := "OnWeaponActivate"
     description := "Called when weapon is activated"
     outputs := [andThen, typed "entity" (data "weapon" "Weapon" .entity)]
     defaults := [("functionName", .str "OnWeaponActivate_Custom")] },
   { nodeType := "on-weapon-primary-attack", category := "events", label := "OnWeaponPrimaryAttack"
     description := "Called when weapon fires; returns ammo consumed"
     outputs := [andThen, typed "entity" (data "weapon" "Weapon" .entity),
       typed "WeaponPrimaryAttackParams" (data "attackParams" "AttackParams" .struct)]
     defaults := [("functionName", .str "OnWeaponPrimaryAttack_Custom")]
     returnType := "var" },
   { nodeType := "on-projectile-collision", category := "events", label := "OnProjectileCollision"
     description := "Called when projectile hits something"
     outputs := [andThen, typed "entity" (data "projectile" "Projectile" .entity), typed "vector"
       (data "pos" "Position" .vector), typed "vector" (data "normal" "Normal" .vector),
       typed "entity" (data "hitEnt" "HitEnt" .entity), typed "int" (data "hitbox" "Hitbox" .int),
       typed "bool" (data "isCritical" "IsCritical" .bool)]
     defaults := [("functionName", .str "OnProjectileCollision_Custom")] },
   { nodeType := "on-player-respawned", category := "events", label := "OnPlayerRespawned"
     description := "Called when a player respawns"
     outputs := [andThen, typed "entity" (data "player" "Player" .entity)]
     defaults := [("functionName", .str "OnPlayerRespawned_Custom")]
     serverOnly := true },
   { nodeType := "on-client-connected", category := "events", label := "OnClientConnected"
     description := "Called when a client finishes connecting"
     outputs := [andThen, typed "entity" (data "player" "Player" .entity)]
     defaults := [("functionName", .str "OnClientConnected_Custom")]
     contexts := [.server] }]

/-- Control flow. -/
def coreFlow : List Definition :=
  [{ nodeType := "sequence", category := "core-flow", label := "Flow: Sequence"
     description := "Execute outputs in order"
     inputs := [execIn]
     outputs := [exec "then0" "Out 1", exec "then1" "Out 2", exec "then2" "Out 3"] },
   { nodeType := "branch", category := "core-flow", label := "Branch"
     description := "Conditional branch based on boolean"
     inputs := [execIn, data "condition" "Condition" .bool]
     outputs := [exec "true" "True", exec "false" "False"]
     defaults := [("condition", .bool true)] },
   { nodeType := "loop-for", category := "core-flow", label := "For Loop"
     description := "Counted loop from start to end"
     inputs := [execIn, data "start" "Start" .int, data "end" "End" .int, data "step" "Step" .int]
     outputs := [exec "body" "Loop Body", data "index" "Index" .int, exec "completed" "Completed"]
     defaults := [("start", .int 0), ("end", .int 10), ("step", .int 1)] },
   { nodeType := "loop-foreach", category := "core-flow", label := "For Each"
     description := "Iterate an array"
     inputs := [execIn, data "array" "Array" .array]
     outputs := [exec "body" "Loop Body", data "element" "Element" .any, data "index" "Index" .int,
       exec "completed" "Completed"] },
   { nodeType := "loop-while", category := "core-flow", label := "While Loop"
     description := "Loop while condition holds"
     inputs := [execIn, data "condition" "Condition" .bool]
     outputs := [exec "body" "Loop Body", exec "completed" "Completed"]
     defaults := [("condition", .bool false)] },
   { nodeType := "switch", category := "core-flow", label := "Switch on Int"
     description := "Jump to the output matching an integer value"
     inputs := [execIn, data "value" "Value" .int]
     outputs := [exec "case0" "Case 1", exec "case1" "Case 2", exec "case2" "Case 3",
       exec "default" "Default", exec "completed" "Completed"]
     defaults := [("value", .int 0), ("cases", .arr [.int 0, .int 1, .int 2])] },
   { nodeType := "switch-case", category := "core-flow", label := "Switch on String"
     description := "Jump to the output matching a string value"
     inputs := [execIn, data "value" "Value" .string]
     outputs := [exec "case0" "Case 1", exec "case1" "Case 2", exec "case2" "Case 3",
       exec "default" "Default", exec "completed" "Completed"]
     defaults := [("value", .str ""), ("cases", .arr [.str "a", .str "b", .str "c"])] },
   { nodeType := "reroute-exec", category := "core-flow", label := "Reroute (Exec)"
     inputs := [execIn]
     outputs := [andThen] },
   { action "call-function" "core-flow" "Call Function" [keyed "functionName"
       (data "function" "Function" .function)] with
     defaults := [("functionName", .str "MyFunction")] },
   { nodeType := "return", category := "core-flow", label := "Return"
     inputs := [execIn]
     purity := .impure }]

/-- Waiting, threads and signals. -/
def timing : List Definition :=
  [{ action "wait" "timing" "Wait" [data "duration" "Duration" .float] with
     defaults := [("duration", .float (.ofInt 1))] },
   { action "delay" "timing" "Delay" [data "duration" "Duration" .float] with
     defaults := [("duration", .float (.ofInt 1))] },
   { nodeType := "thread", category := "timing", label := "Thread (Async)"
     description := "Run the body (or a named function) in a new thread and continue immediately"
     inputs := [execIn, keyed "functionName" (data "function" "Function" .function)]
     outputs := [exec "body" "Thread Body", andThen]
     defaults := [("functionName", .str "")] },
   { action "register-signal" "timing" "RegisterSignal" [data "signal" "Signal" .string] with
     defaults := [("signal", .str "OnCustomSignal")] },
   { action "signal" "timing" "Signal" [data "entity" "Entity" .entity,
       data "signal" "Signal" .string] with
     defaults := [("signal", .str "OnCustomSignal")] },
   { action "wait-signal" "timing" "WaitSignal" [data "entity" "Entity" .entity,
       data "signal" "Signal" .string] with
     defaults := [("signal", .str "OnCustomSignal")] },
   { action "end-signal" "timing" "EndSignal" [data "entity" "Entity" .entity,
       data "signal" "Signal" .string] with
     defaults := [("signal", .str "OnDestroy")] }]

/-- Entities. -/
def entity : List Definition :=
  [{ getter "get-origin" "entity" "GetOrigin" [data "entity" "Entity" .entity]
       (data "origin" "Origin" .vector) with
     varStem := "origin" },
   action "set-origin" "entity" "SetOrigin" [data "entity" "Entity" .entity,
     data "origin" "Origin" .vector],
   { getter "get-velocity" "entity" "GetVelocity" [data "entity" "Entity" .entity]
       (data "velocity" "Velocity" .vector) with
     varStem := "velocity" },
   action "set-velocity" "entity" "SetVelocity" [data "entity" "Entity" .entity,
     data "velocity" "Velocity" .vector],
   { getter "get-health" "entity" "GetHealth" [data "entity" "Entity" .entity]
       (data "health" "Health" .int) with
     varStem := "health" },
   { action "set-health" "entity" "SetHealth" [data "entity" "Entity" .entity,
       data "health" "Health" .int] with
     defaults := [("health", .int 100)]
     serverOnly := true },
   { getter "get-owner" "entity" "GetOwner" [data "entity" "Entity" .entity]
       (data "owner" "Owner" .entity) with
     varStem := "owner" },
   { getter "is-valid" "entity" "IsValid" [data "entity" "Entity" .entity]
       (data "valid" "Valid" .bool) with
     varStem := "isValid" },
   { getter "is-alive" "entity" "IsAlive" [data "entity" "Entity" .entity]
       (data "alive" "Alive" .bool) with
     varStem := "isAlive" },
   { action "kill-entity" "entity" "Die" [data "entity" "Entity" .entity] with
     serverOnly := true },
   { action "entity-take-damage" "entity" "TakeDamage" [data "entity" "Entity" .entity,
       data "attacker" "Attacker" .entity, data "inflictor" "Inflictor" .entity,
       data "damage" "Damage" .float, data "damageSourceId" "Damage Source" .function] with
     defaults := [("damage", .float (.ofInt 10)), ("damageSourceId",
       .str "eDamageSourceId.invalid")]
     serverOnly := true },
   { action "radius-damage" "entity" "RadiusDamage" [data "origin" "Origin" .vector,
       data "attacker" "Attacker" .entity, data "inflictor" "Inflictor" .entity,
       data "damage" "Damage" .float, data "radius" "Radius" .float] with
     defaults := [("damage", .float (.ofInt 50)), ("radius", .float (.ofInt 256))]
     contexts := [.server] },
   { action "spawn-prop" "entity" "Spawn Prop" [data "model" "Model" .asset,
       data "origin" "Origin" .vector, data "angles" "Angles" .vector] with
     outputs := andThen :: [data "prop" "Prop" .entity]
     defaults := [("model", .str "$\"mdl/dev/empty_model.rmdl\"")]
     varStem := "prop" },
   { getter "get-local-client-player" "entity" "GetLocalClientPlayer" []
       (data "player" "Player" .entity) with
     contexts := [.client]
     varStem := "player" },
   { getter "get-localplayer-view" "entity" "GetLocalViewPlayer" []
       (data "player" "Player" .entity) with
     varStem := "viewPlayer" },
   { getter "get-all-players" "entity" "GetPlayerArray" [] (data "players" "Players" .array) with
     varStem := "players" }]

/-- Weapons. -/
def weapons : List Definition :=
  [{ getter "get-active-weapon" "weapons" "GetActiveWeapon" [data "player" "Player" .entity]
       (data "weapon" "Weapon" .entity) with
     varStem := "weapon" },
   { getter "get-weapon-owner" "weapons" "GetWeaponOwner" [data "weapon" "Weapon" .entity]
       (data "owner" "Owner" .entity) with
     varStem := "owner" },
   { action "give-weapon" "weapons" "GiveWeapon" [data "player" "Player" .entity,
       keyed "weaponName" (data "weapon" "Weapon" .string)] with
     defaults := [("weaponName", .str "mp_weapon_r97")]
     serverOnly := true },
   { action "precache-weapon" "weapons" "PrecacheWeapon"
       [data "weaponClass" "WeaponClass" .string] with
     defaults := [("weaponClass", .str "mp_weapon_custom")] },
   { getter "weapon-has-mod" "weapons" "Weapon.HasMod" [data "weapon" "Weapon" .entity,
       data "modName" "ModName" .string] (data "hasMod" "HasMod" .bool) with
     defaults := [("modName", .str "mod_name")]
     varStem := "hasMod" },
   { action "weapon-add-mod" "weapons" "Weapon.AddMod" [data "weapon" "Weapon" .entity,
       data "modName" "ModName" .string] with
     defaults := [("modName", .str "mod_name")] },
   action "fire-weapon-bullet" "weapons" "FireWeaponBullet" [data "weapon" "Weapon" .entity],
   { action "give-weapon-action" "actions" "Action: GiveWeapon" [data "player" "Player" .entity,
       keyed "weaponName" (data "weapon" "Weapon" .string)] with
     defaults := [("weaponName", .str "mp_weapon_r97")]
     serverOnly := true }]

/-- Registration of mod content. -/
def registration : List Definition :=
  [{ action "register-mod-weapon" "mods" "RegisterModWeapon" [data "className" "ClassName" .string,
       data "name" "Name" .string, data "hudIcon" "HudIcon" .asset,
       data "weaponType" "WeaponType" .string, data "pickupSound1p" "PickupSound1p" .string,
       data "pickupSound3p" "PickupSound3p" .string, data "tier" "Tier" .int,
       data "baseMods" "BaseMods" .array,
       data "supportedAttachments" "SupportedAttachments" .array,
       data "lowWeaponChance" "LowWeaponChance" .float,
       data "medWeaponChance" "MedWeaponChance" .float,
       data "highWeaponChance" "HighWeaponChance" .float,
       data "registerInLoot" "RegisterInLoot" .bool] with
     defaults := [("className", .str "mp_weapon_custom"), ("name", .str "Custom Weapon"),
       ("weaponType", .str "smg"), ("tier", .int 1), ("baseMods", .arr []),
       ("supportedAttachments", .arr []), ("registerInLoot", .bool false)]
     varStem := "weaponData" },
   { action "register-custom-damage" "mods" "RegisterCustomWeaponDamageDef"
       [data "weaponClass" "WeaponClass" .string, data "displayName" "DisplayName" .string] with
     defaults :=
       [("weaponClass", .str "mp_weapon_custom"), ("displayName", .str "Custom Weapon")] }]

/-- Sounds and particles. -/
def effects : List Definition :=
  [{ action "emit-sound-on-entity" "audio" "EmitSoundOnEntity" [data "entity" "Entity" .entity,
       keyed "soundName" (data "sound" "Sound" .string)] with
     defaults := [("soundName", .str "sound_name")] },
   { action "emit-sound" "audio" "EmitSound" [data "entity" "Entity" .entity, keyed "soundName"
       (data "sound" "Sound" .string)] with
     defaults := [("soundName", .str "sound_name")] },
   { action "play-sound" "audio" "Play UI Sound" [keyed "soundName"
       (data "sound" "Sound" .string)] with
     defaults := [("soundName", .str "sound_name")]
     clientOnly := true },
   { action "start-particle-on-entity" "particles" "StartParticleEffectOnEntity"
       [data "entity" "Entity" .entity, data "effect" "Effect" .asset,
       data "attachment" "Attachment" .string] with
     outputs := andThen :: [data "fx" "FX Handle" .int]
     defaults := [("effect", .str "$\"P_impact_exp_small\""), ("attachment", .str "muzzle_flash")]
     varStem := "fxHandle" }]

/-- Arithmetic and vectors. -/
def math : List Definition :=
  [{ getter "math-add" "math" "Add" [data "a" "A" .number, data "b" "B" .number]
       (data "result" "Result" .number) with
     varStem := "sum" },
   { getter "math-subtract" "math" "Subtract" [data "a" "A" .number, data "b" "B" .number]
       (data "result" "Result" .number) with
     varStem := "diff" },
   { getter "math-multiply" "math" "Multiply" [data "a" "A" .number, data "b" "B" .number]
       (data "result" "Result" .number) with
     varStem := "product" },
   { getter "math-divide" "math" "Divide" [data "a" "A" .number, data "b" "B" .number]
       (data "result" "Result" .number) with
     defaults := [("b", .int 1)]
     varStem := "quotient" },
   { getter "math-random-float" "math" "RandomFloatRange" [data "min" "Min" .float,
       data "max" "Max" .float] (data "result" "Result" .float) with
     defaults := [("min", .float (.ofInt 0)), ("max", .float (.ofInt 1))]
     purity := .impure
     varStem := "rand" },
   { getter "math-random-int" "math" "RandomIntRange" [data "min" "Min" .int,
       data "max" "Max" .int] (data "result" "Result" .int) with
     defaults := [("min", .int 0), ("max", .int 10)]
     purity := .impure
     varStem := "rand" },
   { getter "vector-create" "math" "Make Vector" [data "x" "X" .float, data "y" "Y" .float,
       data "z" "Z" .float] (data "vector" "Vector" .vector) with
     varStem := "vec" },
   { getter "vector-add" "math" "Vector Add" [data "a" "A" .vector, data "b" "B" .vector]
       (data "result" "Result" .vector) with
     varStem := "vec" },
   { getter "vector-normalize" "math" "Normalize" [data "vector" "Vector" .vector]
       (data "result" "Result" .vector) with
     varStem := "normalized" }]

/-- Comparison and logic. -/
def logic : List Definition :=
  [{ getter "compare-equal" "logic" "Equal" [data "a" "A" .any, data "b" "B" .any]
       (data "result" "Result" .bool) with
     varStem := "isEqual" },
   { getter "compare-not-equal" "logic" "Not Equal" [data "a" "A" .any, data "b" "B" .any]
       (data "result" "Result" .bool) with
     varStem := "notEqual" },
   { getter "compare-greater" "logic" "Greater" [data "a" "A" .number, data "b" "B" .number]
       (data "result" "Result" .bool) with
     varStem := "isGreater" },
   { getter "compare-less" "logic" "Less" [data "a" "A" .number, data "b" "B" .number]
       (data "result" "Result" .bool) with
     varStem := "isLess" },
   { getter "logic-and" "logic" "And" [data "a" "A" .bool, data "b" "B" .bool]
       (data "result" "Result" .bool) with
     varStem := "both" },
   { getter "logic-or" "logic" "Or" [data "a" "A" .bool, data "b" "B" .bool]
       (data "result" "Result" .bool) with
     varStem := "either" },
   { getter "logic-not" "logic" "Not" [data "a" "A" .bool] (data "result" "Result" .bool) with
     varStem := "negated" }]

/-- Literals, references and reroutes; the short names are older spellings. -/
def constants : List Definition :=
  [constant "const-string" "String" .string (.str ""),
   constant "const-int" "Int" .int (.int 0),
   constant "const-float" "Float" .float (.float (.ofInt 0)),
   constant "const-bool" "Bool" .bool (.bool false),
   constant "const-vector" "Vector" .vector (.obj [("x", .int 0), ("y", .int 0), ("z", .int 0)]),
   constant "const-asset" "Asset" .asset (.str "$\"\""),
   constant "string" "Data: String" .string (.str ""),
   constant "int" "Int" .int (.int 0),
   constant "float" "Float" .float (.float (.ofInt 0)),
   constant "bool" "Bool" .bool (.bool true),
   { nodeType := "function-ref", category := "data", label := "Function Reference"
     outputs := [keyed "functionName" (data "function" "Function" .function)]
     defaults := [("functionName", .str "MyFunction")]
     purity := .constant },
   { nodeType := "reroute", category := "data", label := "Reroute"
     inputs := [data "value" "In" .any]
     outputs := [data "value" "Out" .any]
     purity := .constant }]

/-- Arrays. -/
def arrays : List Definition :=
  [{ getter "array-create" "arrays" "Make Array" [] (data "array" "Array" .array) with
     purity := .impure
     varStem := "arr" },
   { action "array-append" "arrays" "Array Append" [data "array" "Array" .array,
       data "element" "Element" .any] with
     outputs := andThen :: [data "array" "Array" .array] },
   { getter "array-get" "arrays" "Array Get" [data "array" "Array" .array,
       data "index" "Index" .int] (data "element" "Element" .any) with
     varStem := "elem" },
   { getter "array-length" "arrays" "Array Length" [data "array" "Array" .array]
       (data "length" "Length" .int) with
     varStem := "len" }]

/-- Utilities. -/
def utilities : List Definition :=
  [{ action "print" "utilities" "Print" [data "message" "Message" .string] with
     defaults := [("message", .str "")] },
   { action "add-callback" "utilities" "AddCallback" [data "callbackType" "CallbackType" .function,
       keyed "functionName" (data "function" "Function" .function)] with
     defaults := [("callbackType", .str "AddCallback_OnClientConnected"), ("functionName",
       .str "MyCallback")] }]

/-- Game rules. -/
def gamemode : List Definition :=
  [{ getter "gamemode-get-current" "gamemode" "GameRules_GetGameMode" []
       (data "mode" "Mode" .string) with
     varStem := "gameMode" },
   { action "gamemode-set-score-limit" "gamemode" "SetScoreLimit" [data "limit" "Limit" .int] with
     defaults := [("limit", .int 50)] }]

/-- Menus and texts. -/
def ui : List Definition :=
  [{ action "ui-open-menu" "ui" "Open Menu" [keyed "menuName" (data "menu" "Menu" .string)] with
     defaults := [("menuName", .str "CustomMenu")] },
   action "ui-close-menu" "ui" "Close Active Menu" [],
   action "ui-set-text" "ui" "Hud_SetText" [data "element" "Element" .entity,
     data "text" "Text" .string]]

def definitions : List Definition :=
  entries ++ coreFlow ++ timing ++ entity ++ weapons ++ registration ++ effects ++ math ++ logic ++
    constants ++ arrays ++ utilities ++ gamemode ++ ui

end VisualScript.Catalog.Builtin

namespace VisualScript.Catalog

/-- The catalog of the built-in node types. -/
def builtin : Catalog := ⟨Builtin.definitions⟩

end VisualScript.Catalog
