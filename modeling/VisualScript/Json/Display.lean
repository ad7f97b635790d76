import VisualScript.Json.Value
import VisualScript.Number.Layout
import VisualScript.Number.Reader
import VisualScript.Text.Hex
import VisualScript.Text.Printable

/-!
# Json — Display

A value as a script shows it when it is taken as it stands: a text by itself, everything else in
a notation with `None`, `True`, `False`, brackets, braces and quoted texts.  A value that holds a
whole number with too many digits is not shown.
-/

namespace VisualScript.Json.Display

/-- Doubles from `0.0001` up to below `10 ^ 16` are positional; exponents have two digits. -/
def layout : Layout := ⟨-4, 16, 2⟩

def float (x : Binary64) : String :=
  match layout.write? x, x with
  | some s, _              => s
  | none,   .infinite true => "-inf"
  | none,   .nan           => "nan"
  | none,   _              => "inf"

/-- A character inside a text quoted with `quote`. -/
def char (quote c : Char) : List Char :=
  if c = quote ∨ c = '\\' then ['\\', c]
  else if c = '\n' then ['\\', 'n']
  else if c = '\r' then ['\\', 'r']
  else if c = '\t' then ['\\', 't']
  else if Text.isPrintable c then [c]
  else if c.toNat < 0x100 then '\\' :: 'x' :: Text.hex 2 c.toNat
  else if c.toNat < 0x10000 then '\\' :: 'u' :: Text.hex 4 c.toNat
  else '\\' :: 'U' :: Text.hex 8 c.toNat

/-- A text in single quotes, or in double quotes when it holds single quotes only. -/
def quoted (s : String) : String :=
  let cs := s.toList
  let quote := if cs.contains '\'' && !cs.contains '"' then '"' else '\''
  String.ofList (quote :: (cs.flatMap (char quote) ++ [quote]))

mutual

/-- A value inside another one. -/
def inner : Json → String
  | .null       => "None"
  | .bool true  => "True"
  | .bool false => "False"
  | .int i      => toString i
  | .float x    => float x
  | .str s      => quoted s
  | .arr xs     => "[" ++ items xs ++ "]"
  | .obj es     => "\x7b" ++ members es ++ "\x7d"

def items : List Json → String
  | []           => ""
  | [x]          => inner x
  | x :: y :: xs => inner x ++ ", " ++ items (y :: xs)

def members : List (String × Json) → String
  | []                => ""
  | [(k, v)]          => quoted k ++ ": " ++ inner v
  | (k, v) :: e :: es => quoted k ++ ": " ++ inner v ++ ", " ++ members (e :: es)

end

end VisualScript.Json.Display

namespace VisualScript.Json

def display : Json → String
  | .str s => s
  | v      => Display.inner v

/-- No whole number in the value has more digits than are shown. -/
def isShort (v : Json) : Bool := v.longest ≤ Number.maxDigits

def display? (v : Json) : Option String := if v.isShort then some v.display else none

end VisualScript.Json
