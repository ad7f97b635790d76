import VisualScript.Graph.Kinds

/-!
# Graph — Fault

What can be wrong with a node graph, and how it is reported.
-/

namespace VisualScript

inductive Fault where
  | duplicateNode (node : String)
  | unknownType (nodeType : String) (node : Option String)
  | duplicatePort (node port : String)
  | missingNode (connection node : String)
  | missingPort (connection node port : String)
  | startsAtInput (connection node port : String)
  | endsAtOutput (connection node port : String)
  | kindMismatch (connection node : String) (source target : PortKind)
  | secondConnection (connection node port : String)
  | entryConnected (connection node : String)
  /-- The exec connections of the graph close a cycle. -/
  | execCycle (node : String)
  /-- An exec chain comes back to a node that is not finished. -/
  | execReentry (node : String)
  | entryReached (node : String)
  | noRecipe (nodeType node : String)
  | readOutOfScope (output node : String)
  | dataCycle (node : String)
  | outputNotProduced (output node : String)
deriving DecidableEq, Repr

namespace Fault

def message : Fault → String
  | duplicateNode n         => s!"Duplicate node id '{n}'"
  | unknownType t _         => s!"Unknown node type '{t}'"
  | duplicatePort n p       => s!"Duplicate port id '{p}' on node '{n}'"
  | missingNode c n         => s!"Connection '{c}' references missing node '{n}'"
  | missingPort c n p       => s!"Connection '{c}' references missing port '{p}' on node '{n}'"
  | startsAtInput c _ p     => s!"Connection '{c}' starts at input port '{p}'"
  | endsAtOutput c _ p      => s!"Connection '{c}' ends at output port '{p}'"
  | kindMismatch c _ s t    =>
      "Connection '" ++ c ++ "' joins " ++ s.name ++ " port to " ++ t.name ++ " port"
  | secondConnection _ n p  =>
      s!"Input port '{p}' on node '{n}' has more than one incoming connection"
  | entryConnected _ n      => s!"Entry node '{n}' has an incoming exec connection"
  | execCycle n             => s!"Exec cycle detected through node '{n}'"
  | execReentry n           => s!"Exec cycle detected at node '{n}'"
  | entryReached n          => s!"Entry node '{n}' cannot be reached by an exec connection"
  | noRecipe t _            => s!"No emitter registered for node type '{t}'"
  | readOutOfScope o n      =>
      s!"Output '{o}' of node '{n}' is read before the node runs or outside its block"
  | dataCycle n             => s!"Data dependency cycle through node '{n}'"
  | outputNotProduced o n   => s!"Node '{n}' does not produce output '{o}'"

/-- The node at fault. -/
def node? : Fault → Option String
  | unknownType _ n => n
  | duplicateNode n | duplicatePort n _ | missingNode _ n | missingPort _ n _
  | startsAtInput _ n _ | endsAtOutput _ n _ | kindMismatch _ n _ _ | secondConnection _ n _
  | entryConnected _ n | execCycle n | execReentry n | entryReached n | noRecipe _ n
  | readOutOfScope _ n | dataCycle n | outputNotProduced _ n => some n

/-- The connection at fault. -/
def connection? : Fault → Option String
  | missingNode c _ | missingPort c _ _ | startsAtInput c _ _ | endsAtOutput c _ _
  | kindMismatch c _ _ _ | secondConnection c _ _ | entryConnected c _ => some c
  | _ => none

/-- Whether the fault is a cycle. -/
def isCycle : Fault → Bool
  | execCycle _ | execReentry _ | dataCycle _ => true
  | _ => false

end Fault

end VisualScript
