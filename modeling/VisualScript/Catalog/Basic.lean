import VisualScript.Graph.Fault
import VisualScript.Graph.Node

/-!
# Catalog

The node types on offer.  A catalog is made from a list of definitions with pairwise different
types; its nodes are created with a payload of their own.
-/

namespace VisualScript

structure Catalog where
  definitions : List Definition

namespace Catalog

/-- The first entry of the list that occurs earlier in it. -/
def firstRepeated (seen : List String) : List String → Option String
  | []      => none
  | x :: xs => if x ∈ seen then some x else firstRepeated (x :: seen) xs

/-- A catalog of the given definitions, or the first type that is defined again. -/
def ofList (definitions : List Definition) : Except String Catalog :=
  match firstRepeated [] (definitions.map (·.nodeType)) with
  | some t => .error t
  | none   => .ok ⟨definitions⟩

def repeatedMessage (nodeType : String) : String := "Duplicate node type in catalog: " ++ nodeType

def find? (c : Catalog) (nodeType : String) : Option Definition :=
  c.definitions.find? (·.nodeType == nodeType)

/-- The definition of a type that has to exist, on behalf of a node. -/
def require (c : Catalog) (nodeType : String) (node : Option String) : Except Fault Definition :=
  match c.find? nodeType with
  | some d => .ok d
  | none   => .error (.unknownType nodeType node)

/-- The definitions of a category; all of them when none is named. -/
def list (c : Catalog) (category : Option String) : List Definition :=
  match category with
  | none    => c.definitions
  | some "" => c.definitions
  | some k  => c.definitions.filter (·.category == k)

/-- The definitions by category, categories and definitions in the order of the catalog. -/
def byCategory (c : Catalog) : List (String × List Definition) :=
  c.definitions.foldl
    (fun groups d => Assoc.set d.category ((groups.lookup d.category).getD [] ++ [d]) groups) []

/-- The ports a template list gives a new node, named `stem` and their position. -/
def portsOf (stem : String) (isInput : Bool) (templates : List PortTemplate) : List Port :=
  templates.zipIdx.map fun (t, i) =>
    { id := stem ++ toString i, label := t.label, kind := t.kind
      valueType := t.valueType.map (·.name), isInput := isInput }

def inputPorts (d : Definition) : List Port := portsOf "input_" true d.inputs

def outputPorts (d : Definition) : List Port := portsOf "output_" false d.outputs

/-- A new node: the ports of its definition, and the default payload with `data` on top. -/
def instantiate (c : Catalog) (nodeType id : String) (data : List (String × Json))
    (position : Coordinates) : Except Fault Node := do
  let d ← c.require nodeType (some id)
  return {
    id := id
    nodeType := nodeType
    category := some d.category
    label := d.label
    position := .at (if position.isEmpty then .origin else position)
    data := Assoc.merge d.defaults data
    inputs := inputPorts d
    outputs := outputPorts d }

end Catalog

end VisualScript
