import VisualScript.Script.Recipes
import VisualScript.Script.Scope

/-!
# Script — Evaluation

Values are resolved when a node needs them.  A node that only produces values is written in place
if it is constant, or pure and read once; otherwise its results are kept in temporaries.

An entry is generated in two passes.  The recording pass declares every temporary where it is read
and notes the block of each read; the placing pass declares it in the innermost block that
encloses all of these, but no further out than the values it depends on.
-/

namespace VisualScript

/-- The two passes over an entry; the second knows the reads of the first. -/
inductive Pass where
  | recording
  | placing (reads : List (String × Path))

/-- What a pass carries along. -/
structure State where
  scopes  : Scopes
  /-- The number of the next fresh variable. -/
  counter : Nat := 0
  /-- The reads of temporaries so far, with the block of each. -/
  reads   : List (String × Path) := []

/-- What a node hands on: its fresh variables and the expressions of its outputs. -/
structure Emission where
  vars    : List String
  outputs : List (String × Expr)

namespace State

def bind (s : State) (slot : Endpoint) (value : Expr) : State :=
  { s with scopes := Scopes.bind slot value s.scopes }

/-- A fresh variable whose name begins with `stem`. -/
def freshVar (s : State) (stem : String) : String × State :=
  (stem ++ toString s.counter, { s with counter := s.counter + 1 })

def freshVars (s : State) : List String → List String × State
  | []            => ([], s)
  | stem :: stems =>
      let (v, s) := s.freshVar stem
      let (vs, s) := freshVars s stems
      (v :: vs, s)

end State

namespace Evaluation

/-- The value a node hands on through an output. -/
def outputValue (inputs : Inputs) (vars : List String) :
    String × Output → Except Failure (String × Expr)
  | (name, .expr t) => .ok (name, t.fill inputs vars)
  | (name, .copy i) =>
      match inputs.lookup i with
      | some (some e) => .ok (name, e)
      | _             => .error (.missingValue name)

/-- Fills in the outline of a node. -/
def emit (o : Outline) (inputs : Inputs) (s : State) : Except Failure (Emission × State) :=
  match o.inputs.find? fun i => (inputs.lookup i).isNone, o.failure with
  | some i, _      => .error (.missingInput i)
  | none,   some f => .error f
  | none,   none   => do
      let (vars, s) := s.freshVars o.fresh
      let outputs ← o.outputs.mapM (outputValue inputs vars)
      return (⟨vars, outputs⟩, s)

/-- The literal that stands in for a missing connection. -/
def literal (n : PlacedNode) (t : PortTemplate) : Except Failure Expr :=
  let key := t.payloadKey
  let value := ((n.node.data.lookup key).or (n.definition.defaults.lookup key)).getD .null
  let type := match t.valueType with
    | some v => v
    | none   => .ofName ((n.input? t.name).bind (·.valueType))
  match Literal.write? type value with
  | some s => .ok (Expr.ofText s)
  | none   => .error (Literal.failure type value)

/-- The connection that feeds an input. -/
def source? (x : Index) (n : PlacedNode) (t : PortTemplate) : Option Endpoint := do
  let port ← n.input? t.name
  let c ← x.incoming? ⟨n.node.id, port.id⟩
  return c.source

/-- Resolves the data inputs of a node in the order of its definition, where `read` reads an
output port.  The code declares the temporaries this needs. -/
def resolve (x : Index) (n : PlacedNode)
    (read : Endpoint → State → Except Failure (Option Expr × Code × State)) :
    List PortTemplate → Inputs → State → Except Failure (Inputs × Code × State)
  | [],      inputs, s => .ok (inputs, .done, s)
  | t :: ts, inputs, s =>
      if t.kind ≠ .data then resolve x n read ts inputs s
      else match source? x n t with
        | some e => do
            let (value, code, s) ← read e s
            let (inputs, more, s) ← resolve x n read ts (Assoc.set t.name value inputs) s
            return (inputs, code ++ more, s)
        | none => do
            let value ← literal n t
            resolve x n read ts (Assoc.set t.name (some value) inputs) s

/-- Whether the value of a node is written in place. -/
def isInlined (x : Index) (n : PlacedNode) : Bool :=
  match n.definition.purity with
  | .constant => true
  | .pure     => x.consumerCount n.node.id ≤ 1
  | .impure   => false

/-! ### Placement -/

/-- The number of leading elements two lists share. -/
def sharedLength {α : Type u} [DecidableEq α] : List α → List α → Nat
  | a :: as, b :: bs => if a = b then sharedLength as bs + 1 else 0
  | _,       _       => 0

/-- The deepest level that holds a value the node depends on.  `seen` are the nodes already looked
at. -/
def floor (x : Index) (ss : Scopes) : (fuel : Nat) → (id : String) → (seen : List String) →
    Nat × List String
  | 0,        _,  seen => (0, seen)
  | fuel + 1, id, seen =>
      if id ∈ seen then (0, seen)
      else match x.node? id with
        | none   => (0, id :: seen)
        | some n =>
            ((n.definition.inputs.filter (·.kind == .data)).filterMap (source? x n)).foldl
              (fun (level, seen) e =>
                match Scopes.level? e ss with
                | some found => (max level found, seen)
                | none       =>
                    if x.hasExec e.node then (Scopes.top ss, seen)
                    else
                      let (below, seen) := floor x ss fuel e.node seen
                      (max level below, seen))
              (0, id :: seen)

/-- The level of the innermost block that encloses the current block and every recorded read. -/
def common (reads : List (String × Path)) (id : String) (current : Path) : Nat :=
  (reads.filter (·.1 == id)).foldl
    (fun level r => min level (sharedLength r.2 current)) current.length

/-- The level at which the temporaries of a node are declared. -/
def placement (x : Index) (pass : Pass) (ss : Scopes) (id : String) : Nat :=
  match pass with
  | .recording     => Scopes.top ss
  | .placing reads =>
      min (Scopes.top ss)
        (max (common reads id (Scopes.path ss)) (floor x ss (x.placed.length + 1) id []).1)

/-! ### Reading outputs -/

/-- Declares a temporary for each output that has a port. -/
def declare (n : PlacedNode) : List (String × Expr) → State → Code × State
  | [],                      s => (.done, s)
  | (name, value) :: outs,   s =>
      match n.output? name with
      | none   => declare n outs s
      | some p =>
          let slot : Endpoint := ⟨n.node.id, p.id⟩
          let (var, s) := s.freshVar n.definition.varStem
          let (rest, s) := declare n outs (s.bind slot (.ofVar var))
          (.declare slot var value rest, s)

/-- Runs `act` with only the scopes up to `level` visible.  Code for that level is placed in front
of the node that is being rendered there, unless it is the current one. -/
def atLevel (level : Nat) (s : State)
    (act : State → Except Failure (Code × State)) : Except Failure (Code × State) := do
  let hidden := Scopes.top s.scopes - level
  let (code, t) ← act { s with scopes := s.scopes.drop hidden }
  if hidden = 0 then return (code, t)
  else
    let outer := Scopes.modifyTop (fun sc => { sc with hoisted := sc.hoisted ++ code }) t.scopes
    return (.done, { t with scopes := s.scopes.take hidden ++ outer })

/-- Notes the read of a temporary in the recording pass. -/
def note (x : Index) (pass : Pass) (n : PlacedNode) (s : State) : State :=
  match pass with
  | .recording =>
      if n.hasExec || isInlined x n then s
      else { s with reads := s.reads ++ [(n.node.id, Scopes.path s.scopes)] }
  | .placing _ => s

/-- Reads an output port: the expression of its value, if it has one, and declarations for the
current block.  `pending` are the nodes whose evaluation is under way. -/
def read (x : Index) (pass : Pass) : (fuel : Nat) → (pending : List String) → Endpoint → State →
    Except Failure (Option Expr × Code × State)
  | fuel, pending, e, s =>
      match x.node? e.node with
      | none   => .error (.fault (.dataCycle e.node))
      | some n =>
          let s := note x pass n s
          match Scopes.lookup? e s.scopes with
          | some (value, scopes) => .ok (some value, .done, { s with scopes := scopes })
          | none =>
              if n.hasExec then .error (.fault (.readOutOfScope (x.portName e) e.node))
              else if e.node ∈ pending then .error (.fault (.dataCycle e.node))
              else match fuel, Recipe.ofType? n.node.nodeType with
                | _,        none   => .error (.fault (.noRecipe n.node.nodeType e.node))
                | 0,        some _ => .error (.fault (.dataCycle e.node))
                | fuel + 1, some r => do
                    let evaluate (s : State) :
                        Except Failure (List (String × Expr) × Expr × Code × State) := do
                      let (inputs, code, s) ←
                        resolve x n (read x pass fuel (e.node :: pending)) n.definition.inputs [] s
                      let (emission, s) ← emit (r.outline x n) inputs s
                      match emission.outputs.lookup (x.portName e) with
                      | none       => throw (.fault (.outputNotProduced (x.portName e) e.node))
                      | some value => return (emission.outputs, value, code, s)
                    if isInlined x n then
                      let (_, value, code, s) ← evaluate s
                      return (some value, code, s)
                    else
                      let (code, s) ← atLevel (placement x pass s.scopes e.node) s fun s => do
                        let (outputs, _, code, s) ← evaluate s
                        let (temporaries, s) := declare n outputs s
                        return (code ++ temporaries, s)
                      match Scopes.lookup? e s.scopes with
                      | some (value, scopes) =>
                          return (some value, code, { s with scopes := scopes })
                      | none => return (none, code, s)

/-- Resolves the data inputs of a node. -/
def inputs (x : Index) (pass : Pass) (n : PlacedNode) (s : State) :
    Except Failure (Inputs × Code × State) :=
  resolve x n (read x pass x.placed.length []) n.definition.inputs [] s

end Evaluation

end VisualScript
