/-!
# Number — Digits

Decimal digits and the numbers they stand for.
-/

namespace VisualScript.Number

def isDigit (c : Char) : Bool := '0' ≤ c && c ≤ '9'

/-- The value of a run of decimal digits. -/
def digitsValue (cs : List Char) : Nat := cs.foldl (fun n c => n * 10 + (c.toNat - 48)) 0

end VisualScript.Number
