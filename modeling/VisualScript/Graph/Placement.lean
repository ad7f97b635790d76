import VisualScript.Json.Value

/-!
# Graph — Placement

Where something is on the canvas.
-/

namespace VisualScript

/-- Coordinates by the name of their axis. -/
abbrev Coordinates := List (String × Binary64)

def Coordinates.origin : Coordinates := [("x", .zero false), ("y", .zero false)]

/-- Where a thing is: where it was put, or at the origin if nobody put it anywhere. -/
inductive Placement where
  | unplaced
  | at (coordinates : Coordinates)

namespace Placement

def coordinates : Placement → Coordinates
  | unplaced => .origin
  | .at c    => c

/-- The coordinates as a JSON object.  `zero` stands for the coordinates nobody gave. -/
def toJson (zero : Json) : Placement → Json
  | unplaced => .obj (Coordinates.origin.map fun (axis, _) => (axis, zero))
  | .at c    => .obj (c.map fun (axis, x) => (axis, .float x))

end Placement

end VisualScript
