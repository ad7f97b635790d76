/-!
# Number — Binary64

Double-precision numbers as exact values: a sign, a whole significand and a power of two, or an
infinity, or not a number.  `ofRatio` rounds a quotient to the nearest double, a tie to the even
significand; every other way to make a double goes through it.
-/

namespace VisualScript

-- Powers are the ones of the core library, whatever algebra is in scope around this module.
attribute [local instance (high)] instPowNat

/-- A double. `finite s m e` is `m * 2 ^ e`, negated when `s`; the makers below keep
`m < 2 ^ 53`, `-1074 ≤ e ≤ 971`, and `2 ^ 52 ≤ m` unless `e = -1074`. -/
inductive Binary64 where
  | finite (negative : Bool) (significand : Nat) (exponent : Int)
  | infinite (negative : Bool)
  | nan
deriving DecidableEq, Inhabited, Repr

namespace Binary64

/-- The least exponent of two: that of the subnormal numbers. -/
def minExponent : Int := -1074

/-- The greatest exponent of two of a finite number. -/
def maxExponent : Int := 971

def zero (negative : Bool) : Binary64 := .finite negative 0 minExponent

/-- `num / den` rounded to a whole number, a tie to the even one. -/
def roundQuotient (num den : Nat) : Nat :=
  let q := num / den
  let r := num % den
  if den < 2 * r ∨ (2 * r = den ∧ q % 2 = 1) then q + 1 else q

/-- The quotient `num / (den * 2 ^ e)` as a numerator and a denominator. -/
def scale (num den : Nat) (e : Int) : Nat × Nat :=
  if 0 ≤ e then (num, den * 2 ^ e.toNat) else (num * 2 ^ (-e).toNat, den)

/-- The exponent of two at which `num / den` has a 53-bit whole part, but no less than the least
exponent. -/
def exponentOf (num den : Nat) : Int :=
  let e : Int := max minExponent (num.log2 - den.log2 - 53)
  let (n, d) := scale num den e
  if n / d < 2 ^ (53 : Nat) then e else e + 1

/-- The number with the given significand and exponent; too great a significand moves the
exponent up, too great an exponent gives an infinity. -/
def assemble (negative : Bool) (significand : Nat) (exponent : Int) : Binary64 :=
  let (m, e) :=
    if significand = 2 ^ (53 : Nat) then (2 ^ (52 : Nat), exponent + 1)
    else (significand, exponent)
  if maxExponent < e then .infinite negative else .finite negative m e

/-- The double nearest to `num / den`, negated when `negative`. -/
def ofRatio (negative : Bool) (num den : Nat) : Binary64 :=
  if num = 0 then zero negative
  else
    let e := exponentOf num den
    let (n, d) := scale num den e
    assemble negative (roundQuotient n d) e

/-- The double nearest to a whole number; an infinity when it is out of range. -/
def ofInt (i : Int) : Binary64 := ofRatio (i < 0) i.natAbs 1

/-- The double nearest to `digits * 10 ^ exponent`, negated when `negative`.  Values beyond
`10 ^ 400` or below `10 ^ (-400)` are settled without computing the power. -/
def ofDecimal (negative : Bool) (digits : Nat) (exponent : Int) : Binary64 :=
  if digits = 0 then zero negative
  else if 400 < exponent then .infinite negative
  else if exponent + digits.log2 + 1 < -400 then zero negative
  else if 0 ≤ exponent then ofRatio negative (digits * 10 ^ exponent.toNat) 1
  else ofRatio negative digits (10 ^ (-exponent).toNat)

def isFinite : Binary64 → Bool
  | .finite .. => true
  | _          => false

/-- The whole number a double stands for, if it is one. -/
def toInt? : Binary64 → Option Int
  | .finite s m e =>
      let whole (n : Nat) : Int := if s then -n else n
      if 0 ≤ e then some (whole (m * 2 ^ e.toNat))
      else if m % 2 ^ (-e).toNat = 0 then some (whole (m / 2 ^ (-e).toNat))
      else none
  | _ => none

def isNegative : Binary64 → Bool
  | .finite s _ _ => s
  | .infinite s   => s
  | .nan          => false

end Binary64

end VisualScript
