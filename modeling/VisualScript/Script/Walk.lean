import VisualScript.Script.Evaluation
import VisualScript.Script.Flow

/-!
# Script — Walk

One pass over the flow of an entry: the values each node needs, then the code of its items.
-/

namespace VisualScript.Walk

/-- The variables and inputs the items of a node are filled in with. -/
structure Filling where
  inputs : Inputs
  vars   : List String

/-- Binds the outputs of a node that have a port. -/
def bindOutputs (n : PlacedNode) (outputs : List (String × Expr)) (s : State) : State :=
  outputs.foldl
    (fun s (name, value) => match n.output? name with
      | some p => s.bind ⟨n.node.id, p.id⟩ value
      | none   => s)
    s

/-- Resolves the inputs of a node that control has reached, and binds its outputs. -/
def enter (x : Index) (pass : Pass) (n : PlacedNode) (s : State) :
    Except Failure (Filling × Code × State) := do
  match Recipe.ofType? n.node.nodeType with
  | none   => throw (.fault (.noRecipe n.node.nodeType n.node.id))
  | some r =>
      let (inputs, code, s) ← Evaluation.inputs x pass n s
      let (emission, s) ← Evaluation.emit (r.outline x n) inputs s
      return (⟨inputs, emission.vars⟩, code, bindOutputs n emission.outputs s)

/-- The declarations waiting in front of the node that is being rendered. -/
def hoisted (s : State) : Code :=
  match s.scopes with
  | []     => .done
  | sc :: _ => sc.hoisted

def setHoisted (s : State) (code : Code) : State :=
  { s with scopes := Scopes.modifyTop (fun sc => { sc with hoisted := code }) s.scopes }

/-- Opens a block, with some outputs of its node bound to fresh variables. -/
def openBlock (n : PlacedNode) (key : BlockKey) (isThread : Bool) (bindings : List (String × Nat))
    (vars : List String) (s : State) : State :=
  let s := { s with scopes := { key := some key, isThread := isThread } :: s.scopes }
  bindOutputs n (bindings.map fun (name, i) => (name, .ofVar (vars.getD i ""))) s

/-- Closes the innermost block; the first result is what its function has captured. -/
def closeBlock (s : State) : List String × State :=
  match s.scopes with
  | []       => ([], s)
  | sc :: ss => (sc.captures, { s with scopes := ss })

/-- The function a thread node starts in place of an unconnected body, if its input names one. -/
def namedFunction? (inputs : Inputs) : Option Expr :=
  match inputs.lookup "function" with
  | none   => none
  | some _ =>
      let e := Template.inputText inputs "function"
      if e.text = "null" then none else some e

mutual

/-- The code of the nodes of a chain. -/
def chain (x : Index) (pass : Pass) : Chain → State → Except Failure (Code × State)
  | .done,               s => .ok (.done, s)
  | .halt f,             _ => .error (.fault f)
  | .step id own rest, s =>
      match x.node? id with
      | none   => .error (.fault (.execReentry id))
      | some n => do
          let (filling, before, s) ← enter x pass n s
          let outer := hoisted s
          let (code, s) ← parts x pass n filling own (setHoisted s .done)
          let inFront := hoisted s
          let (after, s) ← chain x pass rest (setHoisted s outer)
          return (before ++ inFront ++ .mark id filling.inputs filling.vars (code ++ after), s)

/-- The code of the items of a node. -/
def parts (x : Index) (pass : Pass) (n : PlacedNode) (filling : Filling) :
    Parts → State → Except Failure (Code × State)
  | .done, s => .ok (.done, s)
  | .line t rest, s => do
      let (after, s) ← parts x pass n filling rest s
      return (.line (t.fill filling.inputs filling.vars) after, s)
  | .follow body rest, s => do
      let (code, s) ← chain x pass body s
      let (after, s) ← parts x pass n filling rest s
      return (code ++ after, s)
  | .block port bindings tail body rest, s => do
      let key : BlockKey := ⟨n.node.id, port⟩
      let (code, s) ← chain x pass body (openBlock n key false bindings filling.vars s)
      let (_, s) := closeBlock s
      let (after, s) ← parts x pass n filling rest s
      return (.block key (code ++ .ofLines tail) after, s)
  | .thread port name isConnected body rest, s =>
      match isConnected, namedFunction? filling.inputs with
      | false, some e => do
          let (after, s) ← parts x pass n filling rest s
          return (.line (.text "thread " :: e ++ Expr.ofText "()") after, s)
      | _, _ => do
          let key : BlockKey := ⟨n.node.id, port⟩
          let (code, s) ← chain x pass body (openBlock n key true [] filling.vars s)
          let (captures, s) := closeBlock s
          let (after, s) ← parts x pass n filling rest s
          return (.thread key name captures code after, s)

end

end VisualScript.Walk
