import VisualScript.Graph.Fault
import VisualScript.Json.Display

/-!
# Script — Failure

Why no script comes of a graph: the graph is at fault, or a recipe cannot work with the values it
finds, or there is no room for the indentation.
-/

namespace VisualScript

/-- Why code generation stops. -/
inductive Failure where
  /-- The graph is at fault. -/
  | fault (f : Fault)
  /-- A recipe needs an input that the node's definition does not have. -/
  | missingInput (name : String)
  /-- The cases of a switch are given, but as a number or a truth value. -/
  | casesNotAList (kind : String)
  /-- A whole number is too large to be written as a double. -/
  | numberTooLarge
  /-- A whole number has more digits than are shown. -/
  | numberTooLong
  /-- An output would hand on an input without a value. -/
  | missingValue (output : String)
  /-- The width of the indentation is no width a text can have. -/
  | widthTooLarge
  /-- The indentation does not fit into memory. -/
  | outOfMemory
deriving DecidableEq, Repr

namespace Failure

def message : Failure → String
  | fault f            => f.message
  | missingInput name  => Json.Display.quoted name
  | casesNotAList kind => "'" ++ kind ++ "' object is not iterable"
  | numberTooLarge     => "int too large to convert to float"
  | numberTooLong      =>
      "Exceeds the limit (" ++ toString Number.maxDigits ++ " digits) for integer string " ++
        "conversion; use sys.set_int_max_str_digits() to increase the limit"
  | missingValue name  => "outputs." ++ name ++ ": Input should be a valid string"
  | widthTooLarge      => "cannot fit 'int' into an index-sized integer"
  | outOfMemory        => ""

end Failure

end VisualScript
