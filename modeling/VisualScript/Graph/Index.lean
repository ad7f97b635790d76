import VisualScript.Catalog.Basic
import VisualScript.Graph.Matching

/-!
# Graph — Index

A checked graph with its look-up tables.  `Index.build` goes through the nodes, then the
connections, then the entry nodes, then the exec connections as a whole, and stops at the first
fault.
-/

namespace VisualScript

/-- A port of an indexed node with the template it is paired with. -/
structure Socket where
  port     : Port
  template : Option PortTemplate

/-- The name by which code generation knows the port: that of its template, or else its id. -/
def Socket.name (s : Socket) : String :=
  match s.template with
  | some t => t.name
  | none   => s.port.id

/-- A node of a graph with its definition and its ports. -/
structure PlacedNode where
  node       : Node
  definition : Definition
  inputs     : List Socket
  outputs    : List Socket

namespace PlacedNode

def sockets (n : PlacedNode) : List Socket := n.inputs ++ n.outputs

def socket? (n : PlacedNode) (port : String) : Option Socket := n.sockets.find? (·.port.id == port)

/-- The last port of a list that is paired with a template of the given name. -/
def named? (name : String) (sockets : List Socket) : Option Port :=
  (sockets.reverse.find? fun s => s.template.any (·.name == name)).map (·.port)

def input? (n : PlacedNode) (name : String) : Option Port := named? name n.inputs

def output? (n : PlacedNode) (name : String) : Option Port := named? name n.outputs

/-- Whether control passes through the node. -/
def hasExec (n : PlacedNode) : Bool := n.sockets.any (·.port.kind == .exec)

/-- Pairs the ports of one side with their templates and corrects their side. -/
def socketsOf (isInput : Bool) (ports : List Port) (templates : List PortTemplate) : List Socket :=
  (ports.zip (Matching.templates ports templates)).map fun (p, t) =>
    { port := { p with isInput := isInput }, template := t }

/-- The ports of a node: its own, or those of its definition when it was saved without any. -/
def effectivePorts (node : Node) (d : Definition) : List Port × List Port :=
  if node.inputs.isEmpty && node.outputs.isEmpty then (Catalog.inputPorts d, Catalog.outputPorts d)
  else (node.inputs, node.outputs)

def make (node : Node) (d : Definition) : PlacedNode :=
  let (inputs, outputs) := effectivePorts node d
  { node := node, definition := d
    inputs := socketsOf true inputs d.inputs
    outputs := socketsOf false outputs d.outputs }

end PlacedNode

structure Index where
  /-- The nodes by id, in the order of the graph. -/
  placed    : List (String × PlacedNode) := []
  /-- The connection that ends at an input port. -/
  incoming  : List (Endpoint × Connection) := []
  /-- The connections that start at an output port, in the order of the graph. -/
  outgoing  : List (Endpoint × List Connection) := []
  /-- How many connections leave the data ports of a node. -/
  consumers : List (String × Nat) := []

namespace Index

def order (x : Index) : List String := Assoc.keys x.placed

def node? (x : Index) (id : String) : Option PlacedNode := x.placed.lookup id

def socket? (x : Index) (e : Endpoint) : Option Socket := (x.node? e.node).bind (·.socket? e.port)

def inputs (x : Index) (id : String) : List Socket := ((x.node? id).map (·.inputs)).getD []

def outputs (x : Index) (id : String) : List Socket := ((x.node? id).map (·.outputs)).getD []

def portName (x : Index) (e : Endpoint) : String := ((x.socket? e).map (·.name)).getD e.port

def input? (x : Index) (id name : String) : Option Port := (x.node? id).bind (·.input? name)

def output? (x : Index) (id name : String) : Option Port := (x.node? id).bind (·.output? name)

def incoming? (x : Index) (e : Endpoint) : Option Connection := x.incoming.lookup e

def outgoingOf (x : Index) (e : Endpoint) : List Connection := (x.outgoing.lookup e).getD []

/-- The nodes at the far ends of the connections that leave a port. -/
def targets (x : Index) (e : Endpoint) : List String := (x.outgoingOf e).map (·.target.node)

def consumerCount (x : Index) (id : String) : Nat := (x.consumers.lookup id).getD 0

def hasExec (x : Index) (id : String) : Bool := ((x.node? id).map (·.hasExec)).getD false

/-- The entry nodes, in the order of the graph. -/
def entries (x : Index) : List PlacedNode :=
  (x.placed.map Prod.snd).filter (·.definition.isEntry)

/-- The nodes control can pass to directly from a node. -/
def successors (x : Index) (id : String) : List String :=
  ((x.outputs id).filter (·.port.kind == .exec)).flatMap fun s => x.targets ⟨id, s.port.id⟩

/-! ### Nodes and connections -/

def addNode (catalog : Catalog) (x : Index) (node : Node) : Except Fault Index := do
  if Assoc.contains node.id x.placed then throw (.duplicateNode node.id)
  let d ← catalog.require node.nodeType (some node.id)
  let placed := PlacedNode.make node d
  match Catalog.firstRepeated [] (placed.sockets.map (·.port.id)) with
  | some p => throw (.duplicatePort node.id p)
  | none   => return { x with placed := x.placed ++ [(node.id, placed)] }

/-- The node and the port at one end of a connection. -/
def checkNode (x : Index) (c : Connection) (e : Endpoint) : Except Fault Unit :=
  if (x.node? e.node).isSome then .ok () else .error (.missingNode c.id e.node)

def checkPort (x : Index) (c : Connection) (e : Endpoint) : Except Fault Port :=
  match x.socket? e with
  | some s => .ok s.port
  | none   => .error (.missingPort c.id e.node e.port)

def addConnection (x : Index) (c : Connection) : Except Fault Index := do
  x.checkNode c c.source
  x.checkNode c c.target
  let source ← x.checkPort c c.source
  let target ← x.checkPort c c.target
  if source.isInput then throw (.startsAtInput c.id c.source.node c.source.port)
  if !target.isInput then throw (.endsAtOutput c.id c.target.node c.target.port)
  if source.kind ≠ target.kind then
    throw (.kindMismatch c.id c.target.node source.kind target.kind)
  if (x.incoming? c.target).isSome then
    throw (.secondConnection c.id c.target.node c.target.port)
  return { x with
    incoming := x.incoming ++ [(c.target, c)]
    outgoing := Assoc.set c.source (x.outgoingOf c.source ++ [c]) x.outgoing
    consumers :=
      if source.kind = .data then
        Assoc.set c.source.node (x.consumerCount c.source.node + 1) x.consumers
      else x.consumers }

/-! ### Entries and exec cycles -/

/-- The first connection that passes control to an entry node. -/
def entryFault? (x : Index) : Option Fault :=
  x.entries.findSome? fun n =>
    (n.inputs.filter (·.port.kind == .exec)).findSome? fun s =>
      (x.incoming? ⟨n.node.id, s.port.id⟩).map fun c => .entryConnected c.id n.node.id

/-- Follows the exec connections from `id`, where `path` holds the nodes on the way to it and
`finished` those that lead to no cycle.  Fails with a node of the path that is met again. -/
def explore (x : Index) : (fuel : Nat) → (path finished : List String) → (id : String) →
    Except String (List String)
  | 0,        _,    finished, _  => .ok finished
  | fuel + 1, path, finished, id => do
      let finished ← (x.successors id).foldlM
        (fun finished next =>
          if next ∈ id :: path then .error next
          else if next ∈ finished then .ok finished
          else x.explore fuel (id :: path) finished next)
        finished
      return id :: finished

/-- A node on a cycle of exec connections, if there is one. -/
def cycleNode? (x : Index) : Option String :=
  let search := x.order.foldlM
    (fun finished root =>
      if root ∈ finished then .ok finished else x.explore x.order.length [] finished root)
    []
  match search with
  | .error n => some n
  | .ok _    => none

/-- Checks a graph and builds its tables. -/
def build (catalog : Catalog) (nodes : List Node) (connections : List Connection) :
    Except Fault Index := do
  let x ← nodes.foldlM (addNode catalog) {}
  let x ← connections.foldlM addConnection x
  match x.entryFault? with
  | some f => throw f
  | none   =>
      match x.cycleNode? with
      | some n => throw (.execCycle n)
      | none   => return x

end Index

end VisualScript
