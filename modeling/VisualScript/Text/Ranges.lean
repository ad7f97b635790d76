/-!
# Text — Ranges

Sets of characters, given as ascending, disjoint, inclusive ranges of code points.
-/

namespace VisualScript.Text

def inRanges (n : Nat) : List (Nat × Nat) → Bool
  | []               => false
  | (lo, hi) :: rest => if n < lo then false else n ≤ hi || inRanges n rest

end VisualScript.Text
