import VisualScript.Json.Value
import VisualScript.Number.Digits
import VisualScript.Text.Hex

/-!
# Json — Reader

Reading JSON text.  The grammar is the standard one, with `NaN`, `Infinity` and `-Infinity` as
further numbers and bounds on nesting and on the digits of a number.  A number with a fraction or
an exponent is a double, any other a whole number; a repeated key is kept.
-/

namespace VisualScript.Json

/-- What a reader of JSON text puts up with. -/
structure Limits where
  /-- How deep arrays and objects that are not empty may nest. -/
  depth  : Nat
  /-- How many digits a number may have before a point or an exponent. -/
  digits : Nat

end VisualScript.Json

namespace VisualScript.Json.Reader

open Number (isDigit digitsValue)

def isSpace (c : Char) : Bool := c == ' ' || c == '\t' || c == '\n' || c == '\r'

def skipSpace (cs : List Char) : List Char := cs.dropWhile isSpace

/-! ### Strings -/

/-- The 16-bit unit written as four hexadecimal digits. -/
def unit? (a b c d : Char) : Option Nat := do
  let high := (← Text.hexDigit? a) * 16 + (← Text.hexDigit? b)
  let low := (← Text.hexDigit? c) * 16 + (← Text.hexDigit? d)
  return high * 256 + low

def isHighSurrogate (u : Nat) : Bool := 0xD800 ≤ u && u < 0xDC00

def isLowSurrogate (u : Nat) : Bool := 0xDC00 ≤ u && u < 0xE000

/-- The character a letter stands for after a backslash. -/
def shortEscape? : Char → Option Char
  | '"'  => some '"'
  | '\\' => some '\\'
  | '/'  => some '/'
  | 'b'  => some '\x08'
  | 'f'  => some '\x0c'
  | 'n'  => some '\n'
  | 'r'  => some '\r'
  | 't'  => some '\t'
  | _    => none

/-- The rest of a string, from behind its opening quote, and what follows the closing quote. -/
def string? : List Char → Option (List Char × List Char)
  | [] => none
  | '"' :: cs => some ([], cs)
  | '\\' :: 'u' :: a :: b :: c :: d :: cs =>
      match unit? a b c d with
      | none   => none
      | some u =>
          if isLowSurrogate u then none
          else if isHighSurrogate u then
            match cs with
            | '\\' :: 'u' :: e :: f :: g :: h :: rest =>
                match unit? e f g h with
                | none   => none
                | some l =>
                    if isLowSurrogate l then do
                      let (s, r) ← string? rest
                      return (Char.ofNat (0x10000 + (u - 0xD800) * 1024 + (l - 0xDC00)) :: s, r)
                    else none
            | _ => none
          else do
            let (s, r) ← string? cs
            return (Char.ofNat u :: s, r)
  | '\\' :: e :: cs => do
      let c ← shortEscape? e
      let (s, r) ← string? cs
      return (c :: s, r)
  | c :: cs =>
      if c.toNat < 32 ∨ c = '\\' then none
      else do
        let (s, r) ← string? cs
        return (c :: s, r)

/-! ### Numbers -/

/-- The leading digits and the rest. -/
def spanDigits (cs : List Char) : List Char × List Char :=
  (cs.takeWhile isDigit, cs.dropWhile isDigit)

/-- The digits before the point: a single zero or a run that does not start with one. -/
def whole? (cs : List Char) : Option (List Char × List Char) :=
  match spanDigits cs with
  | ([], _)            => none
  | ('0' :: _ :: _, _) => none
  | (ds, rest)         => some (ds, rest)

/-- The digits after a point; none when there is no point. -/
def fraction? : List Char → Option (Option (List Char) × List Char)
  | '.' :: cs => match spanDigits cs with
      | ([], _)    => none
      | (ds, rest) => some (some ds, rest)
  | cs => some (none, cs)

/-- The power of ten after an `e`; none when there is no `e`. -/
def exponent? : List Char → Option (Option Int × List Char)
  | c :: cs =>
      if c = 'e' ∨ c = 'E' then
        let (negative, cs) := match cs with
          | '-' :: r => (true, r)
          | '+' :: r => (false, r)
          | r        => (false, r)
        match spanDigits cs with
        | ([], _)    => none
        | (ds, rest) =>
            let n : Int := digitsValue ds
            some (some (if negative then -n else n), rest)
      else some (none, c :: cs)
  | [] => some (none, [])

/-- A number without its sign, which may have at most `digits` digits before a point or an
exponent. -/
def unsigned? (digits : Nat) (negative : Bool) (cs : List Char) : Option (Json × List Char) := do
  let (whole, cs) ← whole? cs
  if digits < whole.length then none
  let (fraction, cs) ← fraction? cs
  let (exponent, cs) ← exponent? cs
  match fraction, exponent with
  | none, none =>
      let n : Int := digitsValue whole
      return (.int (if negative then -n else n), cs)
  | _, _ =>
      let ds := fraction.getD []
      let e := exponent.getD 0 - ds.length
      return (.float (.ofDecimal negative (digitsValue (whole ++ ds)) e), cs)

/-! ### Values -/

/-- The rest of the text after a fixed word. -/
def afterWord? (word : String) (cs : List Char) : Option (List Char) :=
  if word.toList.isPrefixOf cs then some (cs.drop word.length) else none

def scalar? (digits : Nat) : List Char → Option (Json × List Char)
  | []        => none
  | '"' :: cs => do
      let (s, r) ← string? cs
      return (.str (String.ofList s), r)
  | 'n' :: cs => (afterWord? "ull" cs).map fun r => (.null, r)
  | 't' :: cs => (afterWord? "rue" cs).map fun r => (.bool true, r)
  | 'f' :: cs => (afterWord? "alse" cs).map fun r => (.bool false, r)
  | 'N' :: cs => (afterWord? "aN" cs).map fun r => (.float .nan, r)
  | 'I' :: cs => (afterWord? "nfinity" cs).map fun r => (.float (.infinite false), r)
  | '-' :: cs =>
      match cs with
      | 'I' :: r => (afterWord? "nfinity" r).map fun r => (.float (.infinite true), r)
      | r        => unsigned? digits true r
  | cs        => unsigned? digits false cs

mutual

/-- One value; `depth` more arrays and objects may be opened. -/
def value? (digits : Nat) : (fuel depth : Nat) → List Char → Option (Json × List Char)
  | 0,        _,     _  => none
  | fuel + 1, depth, cs =>
      match skipSpace cs with
      | '[' :: cs =>
          match skipSpace cs, depth with
          | ']' :: cs, _         => some (.arr [], cs)
          | _,         0         => none
          | cs,        depth + 1 =>
              (items? digits fuel depth cs).map fun (xs, r) => (.arr xs, r)
      | '\x7b' :: cs =>
          match skipSpace cs, depth with
          | '\x7d' :: cs, _         => some (.obj [], cs)
          | _,            0         => none
          | cs,           depth + 1 =>
              (members? digits fuel depth cs).map fun (es, r) => (.obj es, r)
      | cs => scalar? digits cs

/-- The values of an array that is not empty, up to its closing bracket. -/
def items? (digits : Nat) : (fuel depth : Nat) → List Char → Option (List Json × List Char)
  | 0,        _,     _  => none
  | fuel + 1, depth, cs => do
      let (x, cs) ← value? digits fuel depth cs
      match skipSpace cs with
      | ']' :: cs => return ([x], cs)
      | ',' :: cs =>
          let (xs, cs) ← items? digits fuel depth cs
          return (x :: xs, cs)
      | _ => none

/-- The members of an object that is not empty, up to its closing brace. -/
def members? (digits : Nat) :
    (fuel depth : Nat) → List Char → Option (List (String × Json) × List Char)
  | 0,        _,     _  => none
  | fuel + 1, depth, cs =>
      match skipSpace cs with
      | '"' :: cs => do
          let (key, cs) ← string? cs
          match skipSpace cs with
          | ':' :: cs =>
              let (v, cs) ← value? digits fuel depth cs
              let e := (String.ofList key, v)
              match skipSpace cs with
              | '\x7d' :: cs => return ([e], cs)
              | ',' :: cs    =>
                  let (es, cs) ← members? digits fuel depth cs
                  return (e :: es, cs)
              | _ => none
          | _ => none
      | _ => none

end

end VisualScript.Json.Reader

namespace VisualScript.Json

/-- The value a text stands for; `none` when the text is no JSON or goes beyond the limits. -/
def read? (limits : Limits) (text : String) : Option Json := do
  let cs := text.toList
  let (v, rest) ← Reader.value? limits.digits (2 * cs.length + 2) limits.depth cs
  if (Reader.skipSpace rest).isEmpty then some v else none

end VisualScript.Json
