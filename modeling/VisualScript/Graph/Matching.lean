import VisualScript.Graph.Node
import VisualScript.Text.Letter
import VisualScript.Text.Lowercase

/-!
# Graph — Matching

Pairing the ports of a saved node with the slots of its definition.  A port whose label names a
slot of its kind takes the first such slot that is free; the ports left over are paired, in order,
with the free slots of their kind.
-/

namespace VisualScript.Matching

/-- What two port labels are compared by: their letters and numbers, in lower case. -/
def labelKey (label : String) : String :=
  String.ofList ((Text.lowercase label).toList.filter Text.isAlphanumeric)

/-- A slot: a template and its position among the templates of its side. -/
abbrev Slot := PortTemplate × Nat

/-- The first element with a property, and the list without it. -/
def takeFirst {α : Type u} (p : α → Bool) : List α → Option (α × List α)
  | []      => none
  | x :: xs => if p x then some (x, xs) else (takeFirst p xs).map fun (y, ys) => (y, x :: ys)

/-- The label of the port names the template: it has letters or numbers, and they are those of the
template's label or name. -/
def isNamedBy (t : PortTemplate) (port : Port) : Bool :=
  let key := labelKey port.label
  key != "" && (key == labelKey t.label || key == labelKey t.name)

/-- Pairs the ports that name a slot; the second result is what stays free. -/
def byLabel : List Port → List Slot → List (Option Slot) × List Slot
  | [],            free => ([], free)
  | port :: ports, free =>
      match takeFirst (fun s => s.1.kind == port.kind && isNamedBy s.1 port) free with
      | some (s, left) =>
          let (slots, left) := byLabel ports left
          (some s :: slots, left)
      | none =>
          let (slots, left) := byLabel ports free
          (none :: slots, left)

/-- Gives the ports without a slot the first free one of their kind. -/
def byOrder : List (Port × Option Slot) → List Slot → List (Option Slot)
  | [],                     _    => []
  | (_, some s) :: ports,   free => some s :: byOrder ports free
  | (port, none) :: ports,  free =>
      match takeFirst (fun s => s.1.kind == port.kind) free with
      | some (s, left) => some s :: byOrder ports left
      | none           => none :: byOrder ports free

/-- The slot of each port, in the order of the ports. -/
def slots (ports : List Port) (templates : List PortTemplate) : List (Option Slot) :=
  let (named, free) := byLabel ports templates.zipIdx
  byOrder (ports.zip named) free

/-- The template of each port, in the order of the ports. -/
def templates (ports : List Port) (templates : List PortTemplate) : List (Option PortTemplate) :=
  (slots ports templates).map (Option.map Prod.fst)

end VisualScript.Matching
