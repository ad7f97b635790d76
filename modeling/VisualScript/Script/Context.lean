import VisualScript.Catalog.Basic
import VisualScript.Text.Lowercase
import VisualScript.Text.Occurrence

/-!
# Script — Context

The virtual machines a script has to be registered for, inferred from the types of its nodes.
-/

namespace VisualScript

structure ScriptContext where
  server : Bool := false
  client : Bool := false
  ui     : Bool := false
deriving DecidableEq, Repr

namespace ScriptContext

def contexts (c : ScriptContext) : List RunContext :=
  (if c.server then [.server] else []) ++ (if c.client then [.client] else []) ++
    (if c.ui then [.ui] else [])

/-- The clause under which a script is registered; by default that of server and client. -/
def clause (c : ScriptContext) : String :=
  if c.contexts.isEmpty then "SERVER || CLIENT"
  else " || ".intercalate (c.contexts.map (·.name))

def union (a b : ScriptContext) : ScriptContext :=
  ⟨a.server || b.server, a.client || b.client, a.ui || b.ui⟩

/-- What a node type asks for: its declared contexts and flags, its start-up kind, its category,
and fragments of its name. -/
def ofDefinition (d : Definition) : ScriptContext :=
  let type := Text.lowercase d.nodeType
  let mentions (fragments : List String) : Bool :=
    fragments.any (Text.occursIn ·.toList type.toList)
  { server :=
      d.contexts.contains .server || d.serverOnly || type == "init-server" ||
        mentions ["spawn", "gamemode"]
    client :=
      d.contexts.contains .client || d.clientOnly || type == "init-client" ||
        mentions ["localplayer", "get-local-client-player"]
    ui := d.contexts.contains .ui || d.uiOnly || type == "init-ui" || d.category == "ui" }

/-- The contexts a list of nodes asks for together; server and client when they ask for none.
Nodes of unknown types ask for nothing. -/
def ofNodes (catalog : Catalog) (nodes : List Node) : ScriptContext :=
  let all := (nodes.filterMap fun n => catalog.find? n.nodeType).foldl
    (fun c d => c.union (ofDefinition d)) ({} : ScriptContext)
  if all.contexts.isEmpty then { server := true, client := true } else all

end ScriptContext

end VisualScript
