import VisualScript.Json.Value
import VisualScript.Number.Layout
import VisualScript.Text.Hex

/-!
# Json — Writer

Compact JSON text: no spaces, objects in the order of their entries, characters beyond ASCII as
they are.  A double that is not finite is written as `null`.
-/

namespace VisualScript.Json.Writer

/-- Doubles from `0.00001` up to below `10 ^ 16` are positional; exponents are not filled up. -/
def layout : Layout := ⟨-5, 16, 1⟩

/-- A character inside a string: quotes, backslashes and control characters are escaped. -/
def char (c : Char) : List Char :=
  match c with
  | '"'    => ['\\', '"']
  | '\\'   => ['\\', '\\']
  | '\x08' => ['\\', 'b']
  | '\x0c' => ['\\', 'f']
  | '\n'   => ['\\', 'n']
  | '\r'   => ['\\', 'r']
  | '\t'   => ['\\', 't']
  | c      =>
      if c.toNat < 32 then '\\' :: 'u' :: Text.hex 4 c.toNat else [c]

def string (s : String) : List Char := '"' :: (s.toList.flatMap char ++ ['"'])

def float (x : Binary64) : List Char := ((layout.write? x).getD "null").toList

mutual

def value : Json → List Char
  | .null       => ['n', 'u', 'l', 'l']
  | .bool true  => ['t', 'r', 'u', 'e']
  | .bool false => ['f', 'a', 'l', 's', 'e']
  | .int i      => (toString i).toList
  | .float x    => float x
  | .str s      => string s
  | .arr xs     => '[' :: (items xs ++ [']'])
  | .obj es     => '\x7b' :: (members es ++ ['\x7d'])

/-- Values with commas between them. -/
def items : List Json → List Char
  | []           => []
  | [x]          => value x
  | x :: y :: xs => value x ++ ',' :: items (y :: xs)

/-- Members with commas between them. -/
def members : List (String × Json) → List Char
  | []                => []
  | [(k, v)]          => string k ++ ':' :: value v
  | (k, v) :: e :: es => string k ++ ':' :: (value v ++ ',' :: members (e :: es))

end

end VisualScript.Json.Writer

namespace VisualScript.Json

/-- The value as compact JSON text. -/
def write (v : Json) : String := String.ofList (Writer.value v)

end VisualScript.Json
