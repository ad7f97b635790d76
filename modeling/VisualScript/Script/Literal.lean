import VisualScript.Graph.Kinds
import VisualScript.Script.Failure
import VisualScript.Text.Blank
import VisualScript.Text.Escape
import VisualScript.Text.Lowercase

/-!
# Script — Literal

Payload values as script expressions.  `Literal.write?` writes a value as an expression of a given
type; a field left empty, and a double that is not finite, become the zero of the type.  It fails
for a whole number too large for a double where a double is asked for, and for a whole number with
too many digits where it is shown.
-/

namespace VisualScript.Literal

/-- The value of an input with no connection and no payload. -/
def zero : ValueType → String
  | .int    => "0"
  | .float  => "0.0"
  | .number => "0"
  | .bool   => "false"
  | .string => "\"\""
  | .asset  => "$\"\""
  | .vector => "<0, 0, 0>"
  | .array  => "[]"
  | _       => "null"

/-- What a string literal escapes. -/
def escapes : Text.EscapeTable := [('\\', '\\'), ('"', '"'), ('\n', 'n'), ('\t', 't')]

/-- A text as a string literal. -/
def quote (s : String) : String :=
  String.ofList ('"' :: (Text.escape escapes s.toList ++ ['"']))

/-- A field the editor left empty: null, or a text of white space. -/
def isEmptyField : Json → Bool
  | .null  => true
  | .str s => Text.isBlankText s
  | _      => false

/-- A finite double: a whole one with a single zero after the point, all its digits written. -/
def finite (x : Binary64) : String :=
  match x.toInt? with
  | some i => (if x.isNegative then "-" else "") ++ toString i.natAbs ++ ".0"
  | none   => Json.Display.float x

/-- A number.  Free text in a numeric field is passed through as an expression.  There is none for a
whole number that is too large for the double asked for, or has too many digits to be shown. -/
def number? (asFloat : Bool) (v : Json) : Option String :=
  match v with
  | .bool b => some (if b then "1" else "0")
  | .int i  =>
      if asFloat then
        let x := Binary64.ofInt i
        if x.isFinite then some (finite x) else none
      else (Json.int i).display?
  | .float x => some (if x.isFinite then finite x else if asFloat then "0.0" else "0")
  | v => if isEmptyField v then some (if asFloat then "0.0" else "0") else v.display?

/-- A vector of its coordinates, which are not asked for as doubles. -/
def coordinates? (parts : List Json) : Option String :=
  (parts.mapM (number? false)).map fun parts => "<" ++ ", ".intercalate parts ++ ">"

/-- A vector from an object with axes or a list of three; anything else as it stands. -/
def vector? : Json → Option String
  | .obj es        => coordinates? (["x", "y", "z"].map fun axis => (es.lookup axis).getD (.int 0))
  | .arr [x, y, z] => coordinates? [x, y, z]
  | v              => v.display?

/-- The type a value has by itself. -/
def infer : Json → ValueType
  | .bool _  => .bool
  | .int _   => .int
  | .float _ => .float
  | .str _   => .string
  | .arr _   => .array
  | .obj es  => if ["x", "y", "z"].all (Assoc.contains · es) then .vector else .any
  | .null    => .any

/-- The type a value is written as: its own where the asked one says nothing about it. -/
def effectiveType (t : ValueType) (v : Json) : ValueType :=
  match t with
  | .any | .entity | .struct => infer v
  | t                        => t

/-- The value is replaced by the zero of the type: it is missing, left empty or not finite. -/
def isMissing (t : ValueType) : Json → Bool
  | .null    => true
  | .str s   => Text.isBlankText s && t != .string && t != .asset
  | .float x => !x.isFinite
  | _        => false

def boolean : Json → Bool
  | .str s => Text.lowercase (Text.trim s) == "true"
  | v      => v.isGiven

/-- A value that is there, written as a given type; arrays as they stand. -/
def scalar? (t : ValueType) (v : Json) : Option String :=
  match t with
  | .string => v.display?.map quote
  | .asset  => v.display?.map fun text =>
      if text.startsWith "$\"" then text else "$\"" ++ text ++ "\""
  | .bool   => some (if boolean v then "true" else "false")
  | .int    => match v with
      | .float x => match x.toInt? with
          | some i => some (toString i)
          | none   => number? false v
      | v => number? false v
  | .float  => number? true v
  | .number => number? false v
  | .vector => vector? v
  | _       => v.display?

mutual

/-- A value as an expression of type `t`; `none` when a whole number in it cannot be written. -/
def write? (t : ValueType) : Json → Option String
  | .arr xs =>
      if effectiveType t (.arr xs) = .array then
        (items? xs).map fun parts => "[" ++ ", ".intercalate parts ++ "]"
      else scalar? (effectiveType t (.arr xs)) (.arr xs)
  | v => if isMissing t v then some (zero t) else scalar? (effectiveType t v) v

/-- The elements of an array, each as its own type. -/
def items? : List Json → Option (List String)
  | []      => some []
  | x :: xs => do
      let s ← write? .any x
      let rest ← items? xs
      return s :: rest

end

/-- Why a value without an expression of type `t` has none. -/
def failure (t : ValueType) : Json → Failure
  | .int _ => if t = .float then .numberTooLarge else .numberTooLong
  | _      => .numberTooLong

end VisualScript.Literal
