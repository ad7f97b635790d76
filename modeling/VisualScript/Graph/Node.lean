import VisualScript.Graph.Kinds
import VisualScript.Graph.Placement
import VisualScript.Json.Value

/-!
# Graph — Node

Node definitions, the nodes placed on a canvas, and the connections between their ports.
-/

namespace VisualScript

/-- A port slot of a node definition. -/
structure PortTemplate where
  /-- The handle by which code generation knows the port. -/
  name       : String
  label      : String
  kind       : PortKind := .data
  valueType  : Option ValueType := none
  /-- The payload key that stands in for a missing connection. -/
  dataKey    : Option String := none
  /-- The type of the parameter an event hands over through this port. -/
  scriptType : Option String := none

/-- The payload key of the port: its own, or the name when it has none. -/
def PortTemplate.payloadKey (t : PortTemplate) : String :=
  match t.dataKey with
  | some k => if k = "" then t.name else k
  | none   => t.name

/-- A type of node. -/
structure Definition where
  nodeType    : String
  category    : String
  label       : String
  description : String := ""
  inputs      : List PortTemplate := []
  outputs     : List PortTemplate := []
  defaults    : List (String × Json) := []
  contexts    : List RunContext := []
  serverOnly  : Bool := false
  clientOnly  : Bool := false
  uiOnly      : Bool := false
  purity      : Purity := .pure
  /-- What the names of variables that hold its results begin with. -/
  varStem     : String := "v"
  returnType  : String := "void"

namespace Definition

/-- The virtual machine whose start-up a node type stands for. -/
def initContext? (nodeType : String) : Option RunContext :=
  [("init-server", RunContext.server), ("init-client", .client), ("init-ui", .ui)].lookup nodeType

def isInit (d : Definition) : Bool := (initContext? d.nodeType).isSome

/-- Entry nodes start a function of their own: start-up nodes and events. -/
def isEntry (d : Definition) : Bool := d.isInit || d.category == "events"

end Definition

/-- A port of a placed node. -/
structure Port where
  id        : String
  label     : String := ""
  kind      : PortKind := .data
  valueType : Option String := none
  isInput   : Bool := true

/-- A node placed on the canvas. -/
structure Node where
  id       : String
  nodeType : String
  category : Option String := none
  label    : String := ""
  position : Placement := .unplaced
  data     : List (String × Json) := []
  inputs   : List Port := []
  outputs  : List Port := []

/-- A port of a graph: the node it is on and its id there. -/
structure Endpoint where
  node : String
  port : String
deriving DecidableEq, Repr

/-- A connection from an output port to an input port. -/
structure Connection where
  id     : String
  source : Endpoint
  target : Endpoint
deriving DecidableEq, Repr

end VisualScript
