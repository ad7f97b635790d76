import VisualScript.Number.Shortest

/-!
# Number — Layout

How a finite double is written: positional notation within a range of magnitudes and powers of ten
outside it, always with the shortest digits.  `Layout` holds what the two written forms of this
library disagree on.
-/

namespace VisualScript

/-- A way to write doubles.  Magnitudes from `10 ^ least` up to below `10 ^ bound` are positional;
the exponent of the others has at least `width` digits. -/
structure Layout where
  least : Int
  bound : Int
  width : Nat

namespace Layout

def zeros (n : Nat) : List Char := List.replicate n '0'

/-- The digits with the point after the first `point` of them. -/
def positional (digits : List Char) (point : Int) : List Char :=
  if point ≤ 0 then '0' :: '.' :: (zeros (-point).toNat ++ digits)
  else
    let p := point.toNat
    let fraction := digits.drop p
    digits.take p ++ zeros (p - digits.length) ++ '.' ::
      (if fraction.isEmpty then ['0'] else fraction)

/-- The exponent of ten with its sign, filled up with zeros to `width` digits. -/
def exponentText (width : Nat) (e : Int) : List Char :=
  let ds := Nat.toDigits 10 e.natAbs
  (if e < 0 then '-' else '+') :: (zeros (width - ds.length) ++ ds)

/-- One digit, the others after a point, and the exponent of ten. -/
def scientific (width : Nat) (digits : List Char) (point : Int) : List Char :=
  let mantissa := match digits with
    | d :: [] => [d]
    | d :: ds => d :: '.' :: ds
    | []      => ['0']
  mantissa ++ 'e' :: exponentText width (point - 1)

/-- The text of `digits * 10 ^ exponent`. -/
def decimal (l : Layout) (d : Decimal) : List Char :=
  let all := Nat.toDigits 10 d.digits
  let point : Int := all.length + d.exponent
  let digits := (all.reverse.dropWhile (· == '0')).reverse
  if l.least < point ∧ point ≤ l.bound then positional digits point
  else scientific l.width digits point

/-- The text of a finite double; `none` for the others. -/
def write? (l : Layout) : Binary64 → Option String
  | .finite s m e =>
      let body := if m = 0 then ['0', '.', '0'] else l.decimal (Decimal.shortest m e)
      some (String.ofList (if s then '-' :: body else body))
  | _ => none

end Layout

end VisualScript
