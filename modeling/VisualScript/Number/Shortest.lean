import VisualScript.Number.Binary64

/-!
# Number — Shortest

The fewest decimal digits that read back as a given double; among those the nearest to it, and of
two equally near the one with an even last digit.
-/

namespace VisualScript

-- Powers are the ones of the core library, whatever algebra is in scope around this module.
attribute [local instance (high)] instPowNat

/-- `digits * 10 ^ exponent`. -/
structure Decimal where
  digits   : Nat
  exponent : Int
deriving DecidableEq, Repr

namespace Decimal

def toBinary64 (d : Decimal) : Binary64 := .ofDecimal false d.digits d.exponent

/-- `m * 2 ^ e` written out in full. -/
def exact (m : Nat) (e : Int) : Decimal :=
  if 0 ≤ e then ⟨m * 2 ^ e.toNat, 0⟩ else ⟨m * 5 ^ (-e).toNat, e⟩

/-- `num / den` in units of `10 ^ q`, as a numerator and a denominator. -/
def inUnits (num den : Nat) (q : Int) : Nat × Nat :=
  if 0 ≤ q then (num, den * 10 ^ q.toNat) else (num * 10 ^ (-q).toNat, den)

/-- The number of digits of the whole part of `num / den`; zero or less when leading zeros follow
the point. The estimate from the binary size is at most two too small. -/
def magnitude (num den : Nat) : Int :=
  let low : Int := (((num.log2 : Int) - den.log2 - 1) * 30103).fdiv 100000
  let below (k : Nat) : Bool :=
    let (n, d) := inUnits num den (low + k)
    n < d
  low + ((List.range 4).find? below).getD 4

/-- Of the two neighbours of `num / den` on the grid `10 ^ q`, the one that reads back as `x` and
is nearer, if any. -/
def onGrid (x : Binary64) (num den : Nat) (q : Int) : Option Decimal :=
  let (n, d) := inUnits num den q
  let below : Decimal := ⟨n / d, q⟩
  let above : Decimal := ⟨n / d + 1, q⟩
  match decide (below.toBinary64 = x), decide (above.toBinary64 = x) with
  | true,  true  => some (if Binary64.roundQuotient n d = n / d then below else above)
  | true,  false => some below
  | false, true  => some above
  | false, false => none

/-- The shortest decimal that reads back as the positive double `m * 2 ^ e`. -/
def shortest (m : Nat) (e : Int) : Decimal :=
  let (num, den) := if 0 ≤ e then (m * 2 ^ e.toNat, 1) else (m, 2 ^ (-e).toNat)
  let k := magnitude num den
  ((List.range 17).findSome? fun (n : Nat) => onGrid (.finite false m e) num den (k - n - 1)).getD
    (exact m e)

end Decimal

end VisualScript
