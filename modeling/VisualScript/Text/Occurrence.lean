/-!
# Text — Occurrence

Finding one text in another.
-/

namespace VisualScript.Text

/-- The position of the first occurrence of one text in another. -/
def position? (part : List Char) : List Char → Option Nat
  | []      => if part.isEmpty then some 0 else none
  | c :: cs => if part.isPrefixOf (c :: cs) then some 0 else (position? part cs).map (· + 1)

def occursIn (part cs : List Char) : Bool := (position? part cs).isSome

end VisualScript.Text
