/-!
# Record — Checked

The outcome of checking outside data: a value, or every issue that was found, each with the path
to it.
-/

namespace VisualScript

inductive PathStep where
  | key (name : String)
  | index (i : Nat)
deriving DecidableEq, Repr

/-- What is wrong with a piece of data. -/
inductive IssueKind where
  | missing
  | notRecord
  | notTable
  | notList
  | notText
  | notChoice
  | badBool
  | notBool
  | badFloat
  | notFloat
  | badInt
  /-- A whole number with too many digits. -/
  | longInt
  | badJson
  /-- A rule of the domain is broken. -/
  | rejected (reason : String)
deriving DecidableEq, Repr

structure Issue where
  path : List PathStep
  kind : IssueKind
deriving DecidableEq, Repr

inductive Checked (α : Type u) where
  | valid (value : α)
  | invalid (issues : List Issue)

namespace Checked

def fail {α : Type u} (kind : IssueKind) : Checked α := .invalid [⟨[], kind⟩]

/-- Adds a step in front of the path of every issue. -/
def within {α : Type u} (step : PathStep) : Checked α → Checked α
  | .valid a        => .valid a
  | .invalid issues => .invalid (issues.map fun i => { i with path := step :: i.path })

def map {α : Type u} {β : Type v} (f : α → β) : Checked α → Checked β
  | .valid a        => .valid (f a)
  | .invalid issues => .invalid issues

/-- Applies a checked function to a checked argument; the issues of both are kept, in order. -/
def apply {α : Type u} {β : Type v} : Checked (α → β) → Checked α → Checked β
  | .valid f,    .valid a    => .valid (f a)
  | .valid _,    .invalid js => .invalid js
  | .invalid is, .valid _    => .invalid is
  | .invalid is, .invalid js => .invalid (is ++ js)

instance : Applicative Checked where
  pure := .valid
  map := map
  seq f a := apply f (a ())

/-- Checks one thing after the other: the second only if the first is valid. -/
def andThen {α : Type u} {β : Type v} (a : Checked α) (f : α → Checked β) : Checked β :=
  match a with
  | .valid a        => f a
  | .invalid issues => .invalid issues

/-- Checks every element, collecting the issues of all. -/
def all {α : Type u} {β : Type v} (check : α → Checked β) : List α → Checked (List β)
  | []      => .valid []
  | a :: as => apply (map List.cons (check a)) (all check as)

end Checked

end VisualScript
