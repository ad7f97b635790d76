import VisualScript.Graph.Index
import VisualScript.Script.Expression
import VisualScript.Script.Failure
import VisualScript.Script.Literal
import VisualScript.Script.Name

/-!
# Script — Recipe

What script a node becomes.  A recipe, looked at together with a node, gives an outline: lines
with gaps for the inputs and fresh variables of the node, the exec outputs to go on with between
them, and an expression for each output the node produces.
-/

namespace VisualScript

/-- One item of an outline. -/
inductive Item where
  | line (text : Template)
  /-- Goes on with an exec output at the same level. -/
  | follow (port : String)
  /-- An exec output as a nested block: outputs bound in it to fresh variables, and lines at its
  end. -/
  | block (port : String) (bindings : List (String × Nat)) (tail : List String)
  /-- An exec output as a thread function.  Without a connected body, the function named by the
  input `function` is started instead, unless that is `null`. -/
  | thread (port name : String) (isConnected : Bool)

/-- What an output of a node is. -/
inductive Output where
  | expr (t : Template)
  /-- The value of an input, handed on. -/
  | copy (input : String)

structure Outline where
  /-- What the names of the fresh variables begin with. -/
  fresh   : List String := []
  items   : List Item := []
  outputs : List (String × Output) := []
  /-- A failure that shows once the inputs are there. -/
  failure : Option Failure := none

def Item.inputs : Item → List String
  | .line t => t.inputs
  | _       => []

def Output.inputs : Output → List String
  | .expr t => t.inputs
  | .copy i => [i]

namespace Outline

/-- The inputs the outline mentions. -/
def inputs (o : Outline) : List String :=
  o.items.flatMap Item.inputs ++ o.outputs.flatMap fun (_, out) => out.inputs

/-- The items before a trailing `follow`, and its port.  A port without a name leads nowhere
there. -/
def splitTail (items : List Item) : List Item × Option String :=
  match items.getLast? with
  | some (.follow port) => (items.dropLast, if port = "" then none else some port)
  | _                   => (items, none)

end Outline

inductive Recipe where
  /-- Lines, then on along `then`. -/
  | statement (lines : List Template)
  /-- A call whose result is kept in a fresh variable. -/
  | bound (call : Template) (output : String)
  | expression (value : Template) (output : String)
  /-- A literal of the payload. -/
  | constant (type : ValueType) (key output : String)
  | sequence
  | branch
  | loopFor
  | loopEach
  | loopWhile
  | switch (type : ValueType)
  | thread
  | stop
  | append
  | reroute
  | registerWeapon

namespace Recipe

open Piece

/-- Whether an output port of the given name is connected. -/
def isConnected (x : Index) (n : PlacedNode) (name : String) : Bool :=
  match n.output? name with
  | some p => !(x.outgoingOf ⟨n.node.id, p.id⟩).isEmpty
  | none   => false

/-- The cases in a payload: the elements of a list, the keys of an object or the characters of a
text. -/
def casesOf (payload : List (String × Json)) : Except Failure (List Json) :=
  match payload.lookup "cases" with
  | none   => .ok []
  | some v =>
      if !v.isGiven then .ok []
      else match v with
        | .arr xs  => .ok xs
        | .obj es  => .ok ((Assoc.keys es).map .str)
        | .str s   => .ok (s.toList.map fun c => .str (String.singleton c))
        | .int _   => .error (.casesNotAList "int")
        | .float _ => .error (.casesNotAList "float")
        | _        => .error (.casesNotAList "bool")

/-- The cases that have an output, each with its label and its block. -/
def caseItems (type : ValueType) (n : PlacedNode) : Nat → List Json → List Item
  | _, []      => []
  | i, v :: vs =>
      let port := "case" ++ toString i
      if (n.output? port).isSome then
        .line [text ("case " ++ (Literal.write? type v).getD "" ++ ":")] ::
          .block port [] ["break"] :: caseItems type n (i + 1) vs
      else []

/-- Why the label of a case cannot be written: the first of those that have an output. -/
def caseFailure? (type : ValueType) (n : PlacedNode) : Nat → List Json → Option Failure
  | _, []      => none
  | i, v :: vs =>
      if (n.output? ("case" ++ toString i)).isSome then
        if (Literal.write? type v).isSome then caseFailure? type n (i + 1) vs
        else some (Literal.failure type v)
      else none

def switchItems (type : ValueType) (x : Index) (n : PlacedNode) (cases : List Json) : List Item :=
  [.line [text "switch (", input "value", text ")"], .line [text "\x7b"]] ++
    caseItems type n 0 cases ++
    (if isConnected x n "default" then [.line [text "default:"], .block "default" [] ["break"]]
     else []) ++
    [.line [text "\x7d"], .follow "completed"]

/-- The fields of a weapon record, in the order in which they are set. -/
def weaponFields : List String :=
  ["className", "name", "hudIcon", "weaponType", "pickupSound1p", "pickupSound3p", "tier",
   "baseMods", "supportedAttachments", "lowWeaponChance", "medWeaponChance", "highWeaponChance"]

/-- The outline of a node under a recipe. -/
def outline (x : Index) (n : PlacedNode) : Recipe → Outline
  | statement lines => { items := lines.map .line ++ [.follow "then"] }
  | bound call output =>
      { fresh := [n.definition.varStem]
        items := [.line (text "local " :: fresh 0 :: text " = " :: call), .follow "then"]
        outputs := [(output, .expr [fresh 0])] }
  | expression value output => { outputs := [(output, .expr value)] }
  | constant type key output =>
      let value := (n.node.data.lookup key).getD .null
      match Literal.write? type value with
      | some s => { outputs := [(output, .expr [text s])] }
      | none   => { failure := some (Literal.failure type value) }
  | sequence =>
      { items := (n.outputs.filter (·.port.kind == .exec)).map fun s => .follow s.name }
  | branch =>
      { items :=
          [.line [text "if (", input "condition", text ")"], .line [text "\x7b"],
           .block "true" [] [], .line [text "\x7d"]] ++
          (if isConnected x n "false" then
             [.line [text "else"], .line [text "\x7b"], .block "false" [] [], .line [text "\x7d"]]
           else []) }
  | loopFor =>
      { fresh := ["i"]
        items :=
          [.line [text "for (int ", fresh 0, text " = ", input "start", text "; ", fresh 0,
             text " < ", input "end", text "; ", fresh 0, text " += ", input "step", text ")"],
           .line [text "\x7b"], .block "body" [("index", 0)] [], .line [text "\x7d"],
           .follow "completed"] }
  | loopEach =>
      { fresh := ["idx", "elem"]
        items :=
          [.line [text "foreach (int ", fresh 0, text ", var ", fresh 1, text " in ",
             input "array", text ")"],
           .line [text "\x7b"], .block "body" [("element", 1), ("index", 0)] [],
           .line [text "\x7d"], .follow "completed"] }
  | loopWhile =>
      { items :=
          [.line [text "while (", input "condition", text ")"], .line [text "\x7b"],
           .block "body" [] [], .line [text "\x7d"], .follow "completed"] }
  | switch type =>
      match casesOf n.node.data with
      | .ok cases => { items := switchItems type x n cases, failure := caseFailure? type n 0 cases }
      | .error f  => { items := switchItems type x n [], failure := some f }
  | thread =>
      { items :=
          [.thread "body" (Name.threadFunction n.node.id) (isConnected x n "body"),
           .follow "then"] }
  | stop => { items := [.line [text "return"]] }
  | append =>
      { items := [.line [input "array", text ".append(", input "element", text ")"], .follow "then"]
        outputs := [("array", .copy "array")] }
  | reroute => { outputs := [("value", .copy "value")] }
  | registerWeapon =>
      let set (field : String) : Item :=
        .line [fresh 0, text ("." ++ field ++ " = "), input field]
      { fresh := [n.definition.varStem]
        items :=
          .line [text "CustomWeaponData ", fresh 0] :: weaponFields.map set ++
          [.line [text "RegisterModWeapon(", fresh 0, text ", ", input "registerInLoot", text ")"],
           .follow "then"] }

end Recipe

end VisualScript
