import VisualScript.Graph.Node
import VisualScript.Script.Expression

/-!
# Script — Code

Generated function bodies as trees, and their text.  A block is printed one step deeper; a thread
is printed as a call, and its body as a function of its own.
-/

namespace VisualScript

/-- A nested block: the node that opens it and the exec port it belongs to. -/
structure BlockKey where
  node : String
  port : String
deriving DecidableEq, Repr

/-- A sequence of statements. -/
inductive Code where
  | done
  /-- The statements of an exec node begin, with the inputs they are filled in with; `vars` are the
  variables they introduce. -/
  | mark (node : String) (inputs : Inputs) (vars : List String) (rest : Code)
  | line (text : Expr) (rest : Code)
  /-- A temporary that holds the value of an output port. -/
  | declare (slot : Endpoint) (var : String) (value : Expr) (rest : Code)
  | block (key : BlockKey) (body rest : Code)
  /-- A body that runs in a thread, with the outer variables it is handed. -/
  | thread (key : BlockKey) (name : String) (captures : List String) (body rest : Code)

/-- A function that runs the body of a thread. -/
structure ThreadFunction where
  name     : String
  captures : List String
  body     : Code

namespace Code

def append : Code → Code → Code
  | done,                       d => d
  | mark n is vs rest,          d => mark n is vs (append rest d)
  | line t rest,                d => line t (append rest d)
  | declare s x v rest,         d => declare s x v (append rest d)
  | block k body rest,          d => block k body (append rest d)
  | thread k n cs body rest,    d => thread k n cs body (append rest d)

instance : Append Code := ⟨append⟩

def ofLines : List String → Code
  | []      => done
  | s :: ss => line (Expr.ofText s) (ofLines ss)

/-- `depth` steps of indentation. -/
def pad (indent : String) (depth : Nat) : String := String.join (List.replicate depth indent)

/-- The lines of a body at a given depth. -/
def render (indent : String) (depth : Nat) : Code → List String
  | done                       => []
  | mark _ _ _ rest            => render indent depth rest
  | line t rest                => (pad indent depth ++ t.text) :: render indent depth rest
  | declare _ x v rest         =>
      (pad indent depth ++ "local " ++ x ++ " = " ++ v.text) :: render indent depth rest
  | block _ body rest          => render indent (depth + 1) body ++ render indent depth rest
  | thread _ name caps _ rest  =>
      (pad indent depth ++ "thread " ++ name ++ "(" ++ ", ".intercalate caps ++ ")") ::
        render indent depth rest

/-- The thread functions of a body, a nested one before the one that starts it. -/
def threads : Code → List ThreadFunction
  | done                       => []
  | mark _ _ _ rest            => threads rest
  | line _ rest                => threads rest
  | declare _ _ _ rest         => threads rest
  | block _ body rest          => threads body ++ threads rest
  | thread _ name caps body rest => threads body ++ ⟨name, caps, body⟩ :: threads rest

end Code

/-- The lines of a thread function. -/
def ThreadFunction.render (indent : String) (f : ThreadFunction) : List String :=
  let params := ", ".intercalate (f.captures.map ("var " ++ ·))
  ["void function " ++ f.name ++ "(" ++ params ++ ")", "\x7b"] ++ f.body.render indent 1 ++ ["\x7d"]

end VisualScript
