import VisualScript.Script.Recipes

/-!
# Script — Flow

The order in which control passes through the nodes of a graph, laid out as a tree before any
value is looked at.  A chain is a sequence of nodes at one level; the parts of a node hold the
chains of its blocks, threads and intermediate outputs.

A chain is unrolled from a work list.  A node that is finished is passed over; the targets of a
node's trailing output go to the front of the list.  The nodes of a chain count as finished only
when the whole chain ends, and meeting one of them before that is a fault.
-/

namespace VisualScript

-- Sums start from the core library's zero, whatever algebra is in scope around this module.
attribute [local instance (high)] Zero.ofOfNat0

mutual

/-- The nodes that run one after the other at one level. -/
inductive Chain where
  | done
  /-- Control reaches a node it must not reach. -/
  | halt (fault : Fault)
  | step (node : String) (parts : Parts) (rest : Chain)

/-- The items of a node, each exec output with its chain. -/
inductive Parts where
  | done
  | line (text : Template) (rest : Parts)
  | follow (body : Chain) (rest : Parts)
  | block (port : String) (bindings : List (String × Nat)) (tail : List String) (body : Chain)
      (rest : Parts)
  | thread (port name : String) (isConnected : Bool) (body : Chain) (rest : Parts)

end

/-- How far the exec nodes of a graph have come. -/
structure Progress where
  /-- Nodes whose chain has not ended, the latest first. -/
  active   : List String := []
  finished : List String := []

namespace Progress

def start (p : Progress) (node : String) : Progress := { p with active := node :: p.active }

/-- Finishes the nodes that became active after `before`. -/
def finishSince (before now : Progress) : Progress :=
  let new := now.active.take (now.active.length - before.active.length)
  { active := before.active, finished := new ++ now.finished }

end Progress

namespace Flow

/-- The targets of the exec output with the given name. -/
def targets (x : Index) (n : PlacedNode) (port : String) : List String :=
  match n.output? port with
  | some p => x.targets ⟨n.node.id, p.id⟩
  | none   => []

/-- Lays out the items of a node, where `chain` lays out the chain of a list of targets. -/
def parts (x : Index) (n : PlacedNode) (chain : List String → Progress → Chain × Progress) :
    List Item → Progress → Parts × Progress
  | [], p => (.done, p)
  | .line t :: items, p =>
      let (rest, p) := parts x n chain items p
      (.line t rest, p)
  | .follow port :: items, p =>
      let (body, p) := chain (targets x n port) p
      let (rest, p) := parts x n chain items p
      (.follow body rest, p)
  | .block port bindings tail :: items, p =>
      let (body, p) := chain (targets x n port) p
      let (rest, p) := parts x n chain items p
      (.block port bindings tail body rest, p)
  | .thread port name isConnected :: items, p =>
      let (body, p) := chain (targets x n port) p
      let (rest, p) := parts x n chain items p
      (.thread port name isConnected body rest, p)

/-- The node that control reaches and its recipe, or why it must not be reached. -/
def enter (x : Index) (p : Progress) (id : String) : Except Fault (PlacedNode × Recipe) :=
  match x.node? id with
  | none   => .error (.execReentry id)
  | some n =>
      if id ∈ p.active then .error (.execReentry id)
      else if n.definition.isEntry then .error (.entryReached id)
      else match Recipe.ofType? n.node.nodeType with
        | some r => .ok (n, r)
        | none   => .error (.noRecipe n.node.nodeType id)

/-- Unrolls the chain of a work list. -/
def unroll (x : Index) : (fuel : Nat) → (work : List String) → Progress → Chain × Progress
  | 0,        _,          p => (.done, p)
  | _ + 1,    [],         p => (.done, p)
  | fuel + 1, id :: work, p =>
      if id ∈ p.finished then unroll x fuel work p
      else match enter x p id with
        | .error f    => (.halt f, p)
        | .ok (n, r)  =>
            let (items, tail) := Outline.splitTail (r.outline x n).items
            let nested (targets : List String) (before : Progress) : Chain × Progress :=
              let (body, now) := unroll x fuel targets before
              (body, before.finishSince now)
            let (own, p) := parts x n nested items (p.start id)
            let next := (tail.map (targets x n)).getD []
            let (rest, p) := unroll x fuel (next ++ work) p
            (.step id own rest, p)

/-- The targets named by an item. -/
def itemTargets (x : Index) (n : PlacedNode) : Item → List String
  | .line _        => []
  | .follow port   => targets x n port
  | .block port .. => targets x n port
  | .thread port .. => targets x n port

/-- The targets named by all items of a node. -/
def nodeTargets (x : Index) (n : PlacedNode) : List String :=
  match Recipe.ofType? n.node.nodeType with
  | some r => (r.outline x n).items.flatMap (itemTargets x n)
  | none   => []

/-- Every node is entered at most once, so no more targets than these are ever looked at. -/
def budget (x : Index) (start : List String) : Nat :=
  start.length + ((x.placed.map fun (_, n) => (nodeTargets x n).length).sum) + 1

/-- The chain of a list of targets, finished at its end. -/
def chain (x : Index) (start : List String) (before : Progress) : Chain × Progress :=
  let (body, now) := unroll x (budget x start) start before
  (body, before.finishSince now)

/-- The chains of the exec outputs of an entry node, one after the other. -/
def entry (x : Index) (n : PlacedNode) (p : Progress) : Parts × Progress :=
  let outputs := n.outputs.filter (·.port.kind == .exec)
  let (body, now) := outputs.foldr
    (fun s rest p =>
      let (body, p) := chain x (x.targets ⟨n.node.id, s.port.id⟩) p
      let (more, p) := rest p
      (.follow body more, p))
    (fun p => (Parts.done, p)) (p.start n.node.id)
  (body, p.finishSince now)

end Flow

end VisualScript
