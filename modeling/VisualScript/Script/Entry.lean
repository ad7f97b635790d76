import VisualScript.Script.Walk

/-!
# Script — Entry

The function of an entry node, with the functions of the threads it starts.
-/

namespace VisualScript

/-- A generated entry function. -/
structure EntryFunction where
  entry  : PlacedNode
  name   : String
  /-- The parameters, each with its type. -/
  params : List (String × String)
  body   : Code

namespace EntryFunction

def initSuffix : RunContext → String
  | .server => "ServerInit"
  | .client => "ClientInit"
  | .ui     => "UIInit"

/-- The name in the payload, empty if there is none; `none` when it cannot be shown. -/
def givenName? (n : PlacedNode) : Option String :=
  match n.node.data.lookup "functionName" with
  | some v => if v.isGiven then v.display?.map Text.trim else some ""
  | none   => some ""

/-- The name of the function: the one in the payload, else the default of its kind. -/
def nameOf (moduleId : String) (n : PlacedNode) : String :=
  let given := (givenName? n).getD ""
  if given ≠ "" then Name.identifier given
  else match Definition.initContext? n.definition.nodeType with
    | some c => Name.modulePrefix moduleId ++ "_" ++ initSuffix c
    | none   => Name.identifier (n.definition.nodeType ++ "_handler")

/-- The data outputs of the entry node, each with its type and parameter name. -/
def paramsOf (n : PlacedNode) : List (Endpoint × String × String) :=
  (n.outputs.filter (·.port.kind == .data)).map fun s =>
    let type := match s.template.bind (·.scriptType) with
      | some t => if t = "" then "var" else t
      | none   => "var"
    (⟨n.node.id, s.port.id⟩, type, Name.identifier s.name)

/-- The state in which the body of an entry function starts: its parameters are bound. -/
def initial (n : PlacedNode) : State :=
  (paramsOf n).foldl (fun s (slot, _, name) => s.bind slot (.ofVar name)) { scopes := [{}] }

/-- One pass over the flow of an entry. -/
def walkFlow (x : Index) (pass : Pass) (n : PlacedNode) (flow : Parts) :
    Except Failure (Code × State) :=
  Walk.parts x pass n ⟨[], []⟩ flow (initial n)

/-- One pass over an entry: over its flow, and then to its name, which has to be there. -/
def walk (x : Index) (pass : Pass) (n : PlacedNode) (flow : Parts) :
    Except Failure (Code × State) := do
  let done ← walkFlow x pass n flow
  if (givenName? n).isSome then return done else throw .numberTooLong

/-- The function of an entry with the given flow: a recording pass, then a placing pass. -/
def make (x : Index) (moduleId : String) (n : PlacedNode) (flow : Parts) :
    Except Failure EntryFunction := do
  let (_, recorded) ← walk x .recording n flow
  let (body, _) ← walk x (.placing recorded.reads) n flow
  return {
    entry := n
    name := nameOf moduleId n
    params := (paramsOf n).map Prod.snd
    body := body }

/-- The lines of the function, its guard or label, and its thread functions. -/
def render (indent : String) (f : EntryFunction) : List String :=
  let d := f.entry.definition
  let params := ", ".intercalate (f.params.map fun (type, name) => type ++ " " ++ name)
  let threads := f.body.threads.flatMap fun t => "" :: t.render indent
  let function :=
    ["global function " ++ f.name, "",
     d.returnType ++ " function " ++ f.name ++ "(" ++ params ++ ")", "\x7b"] ++
      f.body.render indent 1 ++ ["\x7d"] ++ threads
  match Definition.initContext? d.nodeType with
  | some c => ("#if " ++ c.name) :: function ++ ["#endif"]
  | none   =>
      ("// Event: " ++ if f.entry.node.label ≠ "" then f.entry.node.label else d.label) :: function

end EntryFunction

end VisualScript
