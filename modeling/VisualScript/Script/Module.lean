import VisualScript.Script.Context
import VisualScript.Script.Entry
import VisualScript.Text.Lines

/-!
# Script — Module

The script of a whole graph: a banner, then the functions of its entry nodes in the order of the
graph.  An exec node belongs to the first entry that reaches it.
-/

namespace VisualScript.Script

def banner : String := "// Generated by Mod Studio Visual Scripting"

def emptyText : String :=
  "// No nodes in the visual script\n// Add nodes from the palette to get started\n"

def noEntryText : String := "// No entry nodes (Init or Event) found in this script"

/-- The flows of the entry nodes, each with its node. -/
def flows (x : Index) : List PlacedNode → Progress → List (PlacedNode × Parts)
  | [],      _ => []
  | n :: ns, p =>
      let (flow, p) := Flow.entry x n p
      (n, flow) :: flows x ns p

/-- The functions of the entry nodes of a graph. -/
def functions (x : Index) (moduleId : String) : Except Failure (List EntryFunction) :=
  (flows x x.entries {}).mapM fun (n, flow) => EntryFunction.make x moduleId n flow

/-- The text of a script with the given functions. -/
def text (indent moduleId : String) (functions : List EntryFunction) : String :=
  let body :=
    if functions.isEmpty then noEntryText
    else "\n\n".intercalate (functions.map fun f => Text.joinLines (f.render indent))
  Text.joinLines [banner, "// Module: " ++ moduleId, "", body] ++ "\n"

/-- The script of a graph. -/
def generate (catalog : Catalog) (indent moduleId : String) (nodes : List Node)
    (connections : List Connection) : Except Failure String :=
  if nodes.isEmpty then .ok emptyText
  else match Index.build catalog nodes connections with
    | .error f => .error (.fault f)
    | .ok x    => (functions x moduleId).map (text indent moduleId)

/-- The outcome of compiling a script, for callers that report faults. -/
structure Report where
  moduleId        : String
  context         : ScriptContext
  nodeCount       : Nat
  connectionCount : Nat
  /-- The text of the script, or what is wrong with the graph. -/
  result          : Except Fault String

/-- Compiles a script and reports faults of the graph; other failures stay failures. -/
def report (catalog : Catalog) (indent moduleId : String) (nodes : List Node)
    (connections : List Connection) : Except Failure Report :=
  let outcome (result : Except Fault String) : Report :=
    { moduleId := moduleId
      context := ScriptContext.ofNodes catalog nodes
      nodeCount := nodes.length
      connectionCount := connections.length
      result := result }
  match generate catalog indent moduleId nodes connections with
  | .ok code          => .ok (outcome (.ok code))
  | .error (.fault f) => .ok (outcome (.error f))
  | .error e          => .error e

end VisualScript.Script
