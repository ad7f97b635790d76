/-!
# Script — Expression

Script expressions as text that knows which generated variables it mentions, and templates that
are filled in with the inputs and the fresh variables of a node.
-/

namespace VisualScript

/-- A stretch of script text, or the name of a generated variable. -/
inductive Token where
  | text (s : String)
  | var (name : String)
deriving DecidableEq, Repr

/-- A script expression. -/
abbrev Expr := List Token

namespace Expr

def text (e : Expr) : String :=
  String.join (e.map fun
    | .text s   => s
    | .var name => name)

/-- The generated variables an expression mentions. -/
def vars (e : Expr) : List String :=
  e.filterMap fun
    | .var name => some name
    | .text _   => none

def ofText (s : String) : Expr := [.text s]

def ofVar (name : String) : Expr := [.var name]

end Expr

/-- A piece of a template: fixed text, the value of an input, or a fresh variable of the node. -/
inductive Piece where
  | text (s : String)
  | input (name : String)
  | fresh (i : Nat)
deriving DecidableEq, Repr

abbrev Template := List Piece

/-- The resolved inputs of a node by name.  An input can be resolved and still have no value. -/
abbrev Inputs := List (String × Option Expr)

namespace Template

/-- The inputs a template mentions. -/
def inputs (t : Template) : List String :=
  t.filterMap fun
    | .input name => some name
    | _           => none

/-- What an input contributes to a text; one without a value shows as `None`. -/
def inputText (values : Inputs) (name : String) : Expr :=
  match values.lookup name with
  | some (some e) => e
  | some none     => Expr.ofText "None"
  | none          => []

/-- The template with its inputs and variables filled in. -/
def fill (values : Inputs) (vars : List String) (t : Template) : Expr :=
  t.flatMap fun
    | .text s     => Expr.ofText s
    | .input name => inputText values name
    | .fresh i    => Expr.ofVar (vars.getD i "")

end Template

end VisualScript
