import VisualScript.Script.Code
import VisualScript.Text.Identifier

/-!
# Script — Scope

The open blocks of a function while its body is generated, innermost first.  A value bound in a
block is visible in the blocks nested in it; reading it from inside a thread hands the variable to
the thread function.
-/

namespace VisualScript

structure Scope where
  /-- The block the scope belongs to; none for the body of the entry function. -/
  key      : Option BlockKey := none
  /-- Whether the block is a function of its own. -/
  isThread : Bool := false
  /-- Values bound in the block, the latest first. -/
  bindings : List (Endpoint × Expr) := []
  /-- The outer variables the thread function is handed. -/
  captures : List String := []
  /-- Declarations placed in front of the node that is being rendered in the block. -/
  hoisted  : Code := .done

/-- The scopes from the innermost to that of the function body. -/
abbrev Scopes := List Scope

/-- The block keys from the outermost to the innermost block. -/
abbrev Path := List BlockKey

namespace Scope

def bind (s : Scope) (slot : Endpoint) (value : Expr) : Scope :=
  { s with bindings := (slot, value) :: s.bindings }

def capture (s : Scope) (name : String) : Scope :=
  if name ∈ s.captures then s else { s with captures := s.captures ++ [name] }

end Scope

/-- Identifiers that stand for themselves everywhere. -/
def Expr.keywords : List String := ["true", "false", "null", "this"]

/-- An expression that is a variable to hand to a thread: an identifier that is no keyword. -/
def Expr.isVariable (e : Expr) : Bool :=
  Text.isIdentifier e.text.toList && !keywords.contains e.text

namespace Scopes

/-- The level of the innermost scope; the function body is at level 0. -/
def top (ss : Scopes) : Nat := ss.length - 1

def path (ss : Scopes) : Path := (ss.filterMap (·.key)).reverse

/-- The level of the innermost scope that binds a slot. -/
def level? (slot : Endpoint) : Scopes → Option Nat
  | []      => none
  | s :: ss => if (s.bindings.lookup slot).isSome then some ss.length else level? slot ss

/-- The value bound to a slot.  Every thread between the reader and the binding captures it. -/
def lookup? (slot : Endpoint) : Scopes → Option (Expr × Scopes)
  | []      => none
  | s :: ss =>
      match s.bindings.lookup slot with
      | some e => some (e, s :: ss)
      | none   =>
          match lookup? slot ss with
          | some (e, ss) =>
              some (e, (if s.isThread && e.isVariable then s.capture e.text else s) :: ss)
          | none => none

/-- Changes the innermost scope. -/
def modifyTop (f : Scope → Scope) : Scopes → Scopes
  | []      => []
  | s :: ss => f s :: ss

def bind (slot : Endpoint) (value : Expr) (ss : Scopes) : Scopes :=
  modifyTop (·.bind slot value) ss

end Scopes

end VisualScript
