/-!
# Graph — Kinds

The small vocabularies of a node graph: kinds of ports, types of values, the virtual machines a
script runs in, and how a value-producing node is evaluated.
-/

namespace VisualScript

/-- A port passes on control or a value. -/
inductive PortKind where
  | exec
  | data
deriving DecidableEq, Repr

/-- Types of values as the editor spells them. -/
inductive ValueType where
  | int
  | float
  | number
  | bool
  | string
  | asset
  | function
  | vector
  | entity
  | struct
  | array
  | any
deriving DecidableEq, Repr

/-- The virtual machine a script is registered for. -/
inductive RunContext where
  | server
  | client
  | ui
deriving DecidableEq, Repr

/-- How a node that only produces values is evaluated: constants are always written in place,
pure nodes unless several inputs read them, impure nodes never. -/
inductive Purity where
  | constant
  | pure
  | impure
deriving DecidableEq, Repr

namespace PortKind

def name : PortKind → String
  | exec => "exec"
  | data => "data"

def all : List PortKind := [exec, data]

end PortKind

namespace ValueType

def name : ValueType → String
  | int      => "int"
  | float    => "float"
  | number   => "number"
  | bool     => "boolean"
  | string   => "string"
  | asset    => "asset"
  | function => "function"
  | vector   => "vector"
  | entity   => "entity"
  | struct   => "struct"
  | array    => "array"
  | any      => "any"

def all : List ValueType :=
  [int, float, number, bool, string, asset, function, vector, entity, struct, array, any]

/-- The type with a given spelling; any other spelling, or none, means `any`. -/
def ofName (name? : Option String) : ValueType :=
  match name? with
  | some n => (all.find? (·.name == n)).getD any
  | none   => any

end ValueType

namespace RunContext

def name : RunContext → String
  | server => "SERVER"
  | client => "CLIENT"
  | ui     => "UI"

def all : List RunContext := [server, client, ui]

end RunContext

namespace Purity

def name : Purity → String
  | constant => "constant"
  | pure     => "pure"
  | impure   => "impure"

def all : List Purity := [constant, pure, impure]

end Purity

end VisualScript
