import VisualScript.Script.Recipe

/-!
# Script — Recipes

The recipe of every node type that becomes script.
-/

namespace VisualScript.Recipe.Table

open Piece

def coreFlow : List (String × Recipe) :=
  [("sequence", .sequence),
   ("branch", .branch),
   ("loop-for", .loopFor),
   ("loop-foreach", .loopEach),
   ("loop-while", .loopWhile),
   ("switch", .switch .int),
   ("switch-case", .switch .string),
   ("reroute-exec", .sequence),
   ("call-function", .statement [[input "function", text "()"]]),
   ("return", .stop)]

def timing : List (String × Recipe) :=
  [("wait", .statement [[text "wait ", input "duration"]]),
   ("delay", .statement [[text "wait ", input "duration"]]),
   ("thread", .thread),
   ("register-signal", .statement [[text "RegisterSignal(", input "signal", text ")"]]),
   ("signal", .statement [[text "Signal(", input "entity", text ", ", input "signal", text ")"]]),
   ("wait-signal", .statement [[text "WaitSignal(", input "entity", text ", ", input "signal",
     text ")"]]),
   ("end-signal", .statement [[text "EndSignal(", input "entity", text ", ", input "signal",
     text ")"]])]

def entity : List (String × Recipe) :=
  [("get-origin", .expression [input "entity", text ".GetOrigin()"] "origin"),
   ("set-origin", .statement [[input "entity", text ".SetOrigin(", input "origin", text ")"]]),
   ("get-velocity", .expression [input "entity", text ".GetVelocity()"] "velocity"),
   ("set-velocity", .statement [[input "entity", text ".SetVelocity(", input "velocity",
     text ")"]]),
   ("get-health", .expression [input "entity", text ".GetHealth()"] "health"),
   ("set-health", .statement [[input "entity", text ".SetHealth(", input "health", text ")"]]),
   ("get-owner", .expression [input "entity", text ".GetOwner()"] "owner"),
   ("is-valid", .expression [text "IsValid(", input "entity", text ")"] "valid"),
   ("is-alive", .expression [text "IsAlive(", input "entity", text ")"] "alive"),
   ("kill-entity", .statement [[input "entity", text ".Die()"]]),
   ("entity-take-damage", .statement [[input "entity", text ".TakeDamage(", input "damage",
     text ", ", input "attacker", text ", ", input "inflictor", text ", \x7b damageSourceId = ",
     input "damageSourceId", text " \x7d)"]]),
   ("radius-damage", .statement [[text "RadiusDamage(", input "origin", text ", ",
     input "attacker", text ", ", input "inflictor", text ", ", input "damage", text ", ",
     input "radius", text ")"]]),
   ("spawn-prop", .bound [text "CreatePropDynamic(", input "model", text ", ", input "origin",
     text ", ", input "angles", text ")"] "prop"),
   ("get-local-client-player", .expression [text "GetLocalClientPlayer()"] "player"),
   ("get-localplayer-view", .expression [text "GetLocalViewPlayer()"] "player"),
   ("get-all-players", .expression [text "GetPlayerArray()"] "players")]

def weapons : List (String × Recipe) :=
  [("get-active-weapon", .expression [input "player",
     text ".GetActiveWeapon(eActiveInventorySlot.mainHand)"] "weapon"),
   ("get-weapon-owner", .expression [input "weapon", text ".GetWeaponOwner()"] "owner"),
   ("give-weapon", .statement [[input "player", text ".GiveWeapon(", input "weapon",
     text ", WEAPON_INVENTORY_SLOT_ANY)"]]),
   ("precache-weapon", .statement [[text "PrecacheWeapon(", input "weaponClass", text ")"]]),
   ("weapon-has-mod", .expression [input "weapon", text ".HasMod(", input "modName",
     text ")"] "hasMod"),
   ("weapon-add-mod", .statement [[input "weapon", text ".AddMod(", input "modName", text ")"]]),
   ("fire-weapon-bullet", .statement [[input "weapon", text ".FireWeaponBullet()"]]),
   ("give-weapon-action", .statement [[input "player", text ".GiveWeapon(", input "weapon",
     text ", WEAPON_INVENTORY_SLOT_ANY)"]])]

def registration : List (String × Recipe) :=
  [("register-mod-weapon", .registerWeapon),
   ("register-custom-damage", .statement [[text "RegisterWeaponDamageSource(", input "weaponClass",
     text ", ", input "displayName", text ")"]])]

def effects : List (String × Recipe) :=
  [("emit-sound-on-entity", .statement [[text "EmitSoundOnEntity(", input "entity", text ", ",
     input "sound", text ")"]]),
   ("emit-sound", .statement [[text "EmitSoundOnEntity(", input "entity", text ", ", input "sound",
     text ")"]]),
   ("play-sound", .statement [[text "EmitUISound(", input "sound", text ")"]]),
   ("start-particle-on-entity", .bound [text "StartParticleEffectOnEntity(", input "entity",
     text ", GetParticleSystemIndex(", input "effect", text "), FX_PATTACH_POINT_FOLLOW, ",
     input "entity", text ".LookupAttachment(", input "attachment", text "))"] "fx")]

def math : List (String × Recipe) :=
  [("math-add", .expression [text "(", input "a", text " + ", input "b", text ")"] "result"),
   ("math-subtract", .expression [text "(", input "a", text " - ", input "b", text ")"] "result"),
   ("math-multiply", .expression [text "(", input "a", text " * ", input "b", text ")"] "result"),
   ("math-divide", .expression [text "(", input "a", text " / ", input "b", text ")"] "result"),
   ("math-random-float", .expression [text "RandomFloatRange(", input "min", text ", ",
     input "max", text ")"] "result"),
   ("math-random-int", .expression [text "RandomIntRange(", input "min", text ", ", input "max",
     text ")"] "result"),
   ("vector-create", .expression [text "<", input "x", text ", ", input "y", text ", ", input "z",
     text ">"] "vector"),
   ("vector-add", .expression [text "(", input "a", text " + ", input "b", text ")"] "result"),
   ("vector-normalize", .expression [text "Normalize(", input "vector", text ")"] "result")]

def logic : List (String × Recipe) :=
  [("compare-equal", .expression [text "(", input "a", text " == ", input "b", text ")"] "result"),
   ("compare-not-equal", .expression [text "(", input "a", text " != ", input "b",
     text ")"] "result"),
   ("compare-greater", .expression [text "(", input "a", text " > ", input "b", text ")"] "result"),
   ("compare-less", .expression [text "(", input "a", text " < ", input "b", text ")"] "result"),
   ("logic-and", .expression [text "(", input "a", text " && ", input "b", text ")"] "result"),
   ("logic-or", .expression [text "(", input "a", text " || ", input "b", text ")"] "result"),
   ("logic-not", .expression [text "(!", input "a", text ")"] "result")]

def constants : List (String × Recipe) :=
  [("const-string", .constant .string "value" "value"),
   ("const-int", .constant .int "value" "value"),
   ("const-float", .constant .float "value" "value"),
   ("const-bool", .constant .bool "value" "value"),
   ("const-vector", .constant .vector "value" "value"),
   ("const-asset", .constant .asset "value" "value"),
   ("string", .constant .string "value" "value"),
   ("int", .constant .int "value" "value"),
   ("float", .constant .float "value" "value"),
   ("bool", .constant .bool "value" "value"),
   ("function-ref", .constant .function "functionName" "function"),
   ("reroute", .reroute)]

def arrays : List (String × Recipe) :=
  [("array-create", .expression [text "[]"] "array"),
   ("array-append", .append),
   ("array-get", .expression [input "array", text "[", input "index", text "]"] "element"),
   ("array-length", .expression [input "array", text ".len()"] "length")]

def utilities : List (String × Recipe) :=
  [("print", .statement [[text "print(", input "message", text ")"]]),
   ("add-callback", .statement [[input "callbackType", text "(", input "function", text ")"]])]

def gamemode : List (String × Recipe) :=
  [("gamemode-get-current", .expression [text "GameRules_GetGameMode()"] "mode"),
   ("gamemode-set-score-limit", .statement [[text "GameRules_SetScoreLimit(", input "limit",
     text ")"]])]

def ui : List (String × Recipe) :=
  [("ui-open-menu", .statement [[text "AdvanceMenu(GetMenu(", input "menu", text "))"]]),
   ("ui-close-menu", .statement [[text "CloseActiveMenu()"]]),
   ("ui-set-text", .statement [[text "Hud_SetText(", input "element", text ", ", input "text",
     text ")"]])]

def all : List (String × Recipe) :=
  coreFlow ++ timing ++ entity ++ weapons ++ registration ++ effects ++ math ++ logic ++
    constants ++ arrays ++ utilities ++ gamemode ++ ui

end VisualScript.Recipe.Table

namespace VisualScript.Recipe

/-- The recipe of a node type, if it has one; entry nodes have none. -/
def ofType? (nodeType : String) : Option Recipe := Table.all.lookup nodeType

end VisualScript.Recipe
