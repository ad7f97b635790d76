import VisualScript.Number.Binary64
import VisualScript.Number.Digits
import VisualScript.Text.Blank

/-!
# Number — Reader

Numbers in text fields: doubles with an optional fraction and exponent, infinities and not a
number by name, and whole numbers.  White space around the number is dropped, and single
underscores may stand between its characters.
-/

namespace VisualScript.Number

/-- The sign at the front, and the rest. -/
def splitSign : List Char → Bool × List Char
  | '-' :: cs => (true, cs)
  | '+' :: cs => (false, cs)
  | cs        => (false, cs)

def signed (negative : Bool) (n : Nat) : Int := if negative then -n else n

/-- The exponent of ten after the digits, if the rest is one. -/
def exponent? : List Char → Option Int
  | []      => some 0
  | c :: cs =>
      if c = 'e' ∨ c = 'E' then
        let (negative, ds) := splitSign cs
        if ds.isEmpty || !ds.all isDigit then none else some (signed negative (digitsValue ds))
      else none

/-- A double without its sign, spelled out in digits. -/
def digits? (negative : Bool) (cs : List Char) : Option Binary64 := do
  let whole := cs.takeWhile isDigit
  let rest := cs.dropWhile isDigit
  let (fraction, rest) := match rest with
    | '.' :: r => (r.takeWhile isDigit, r.dropWhile isDigit)
    | r        => ([], r)
  if whole.isEmpty && fraction.isEmpty then none
  else
    let e ← exponent? rest
    return .ofDecimal negative (digitsValue (whole ++ fraction)) (e - fraction.length)

/-- A double by its usual spelling. -/
def spelled? (cs : List Char) : Option Binary64 :=
  let (negative, cs) := splitSign cs
  let word := String.ofList (cs.map Char.toLower)
  if word = "inf" ∨ word = "infinity" then some (.infinite negative)
  else if word = "nan" then some .nan
  else digits? negative cs

/-- Whether two underscores stand side by side. -/
def hasDoubleUnderscore : List Char → Bool
  | '_' :: '_' :: _ => true
  | _ :: cs         => hasDoubleUnderscore cs
  | []              => false

/-- The text without its underscores, if there are any and they stand alone between other
characters. -/
def dropUnderscores? (cs : List Char) : Option (List Char) :=
  if !cs.contains '_' || cs.head? == some '_' || cs.getLast? == some '_' || hasDoubleUnderscore cs
  then none
  else some (cs.filter (· != '_'))

/-- The double a text field holds. -/
def readFloat? (s : String) : Option Binary64 :=
  match spelled? (Text.trimBy Text.isSpace s.toList) with
  | some x => some x
  | none   => (dropUnderscores? s.toList).bind spelled?

/-! ### Whole numbers -/

/-- Why a text field holds no whole number. -/
inductive IntFault where
  | malformed
  /-- More digits than are read. -/
  | tooLong
deriving DecidableEq, Repr

/-- How many digits a whole number may have, to be read or to be shown. -/
def maxDigits : Nat := 4300

/-- A whole number in its plain form: an optional minus and digits without a leading zero.  A
number that is too long is noticed before what follows it. -/
def plainInt (cs : List Char) : Except IntFault Int :=
  let (negative, ds) := match cs with
    | '-' :: ds => (true, ds)
    | ds        => (false, ds)
  let run := ds.takeWhile isDigit
  match run with
  | []            => .error .malformed
  | '0' :: _ :: _ => .error .malformed
  | _             =>
      if maxDigits < run.length then .error .tooLong
      else if ds.any (!isDigit ·) then .error .malformed
      else .ok (signed negative (digitsValue run))

/-- Drops a plus in front of anything but a minus. -/
def dropPlus? : List Char → Option (List Char)
  | '+' :: '-' :: _ => none
  | '+' :: cs       => some cs
  | cs              => some cs

/-- Whether a digit is no zero. -/
def isNonzero (c : Char) : Bool := isDigit c && c != '0'

/-- Drops leading zeros, with underscores among them, up to a minus or another digit.  The last
character stays if nothing follows, and the one before a point stays too. -/
def dropZeros? : List Char → Option (List Char)
  | []        => none
  | '0' :: cs =>
      let rest := cs.dropWhile fun c => c == '0' || c == '_'
      let last := (('0' :: cs).take (cs.length + 1 - rest.length)).getLast?
      match rest with
      | []      => last.map ([·])
      | c :: ds =>
          if c == '.' then last.map (· :: c :: ds)
          else if c == '-' || isNonzero c then some (c :: ds)
          else none
  | c :: cs   => if isNonzero c then some (c :: cs) else none

/-- Drops the leading zeros behind an optional minus. -/
def dropSignedZeros? : List Char → Option (List Char)
  | '-' :: cs => (dropZeros? cs).map ('-' :: ·)
  | cs        => dropZeros? cs

/-- Drops a fraction of zeros, of which there is at least one. -/
def dropFraction (cs : List Char) : List Char :=
  match cs.dropWhile (· != '.') with
  | '.' :: d :: ds => if (d :: ds).all (· == '0') then cs.takeWhile (· != '.') else cs
  | _              => cs

/-- A whole number brought to its plain form: without the white space around it, a plus, leading
zeros, a fraction of zeros and single underscores. -/
def tidyInt? (cs : List Char) : Option (List Char) := do
  let cs ← dropPlus? (Text.trimBy Text.isSpace cs)
  let cs := dropFraction (← dropSignedZeros? cs)
  return (dropUnderscores? cs).getD cs

/-- The whole number a text field holds.  Only a number in its plain form is found too long. -/
def readInt (s : String) : Except IntFault Int :=
  match plainInt s.toList with
  | .error .malformed => match (tidyInt? s.toList).map plainInt with
      | some (.ok i) => .ok i
      | _            => .error .malformed
  | outcome => outcome

end VisualScript.Number
