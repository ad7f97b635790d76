import VisualScript.Json.Value
import VisualScript.Number.Reader
import VisualScript.Record.Checked

/-!
# Record — Check

Checks of JSON values: texts, truth values, doubles, choices, lists, tables, and the fields of a
record.  Truth values and doubles are taken from numbers and texts as well.
-/

namespace VisualScript.Check

-- Powers are the ones of the core library, whatever algebra is in scope around this module.
attribute [local instance (high)] instPowNat

/-- The text by which one value of a closed vocabulary is chosen. -/
def choice {α : Type} (name : α → String) (all : List α) (v : Json) : Checked α :=
  match v with
  | .str s => match all.find? (name · == s) with
      | some a => .valid a
      | none   => .fail .notChoice
  | _ => .fail .notChoice

def text : Json → Checked String
  | .str s => .valid s
  | _      => .fail .notText

/-- A truth value in words; case does not matter. -/
def boolText (s : String) : Checked Bool :=
  let word := s.map Char.toLower
  if ["0", "off", "f", "false", "n", "no"].contains word then .valid false
  else if ["1", "on", "t", "true", "y", "yes"].contains word then .valid true
  else .fail .badBool

/-- A truth value as a whole number, which has to fit into 64 bits. -/
def boolInt (i : Int) : Checked Bool :=
  if i = 0 then .valid false
  else if i = 1 then .valid true
  else if -2 ^ (63 : Nat) ≤ i ∧ i < 2 ^ (63 : Nat) then .fail .badBool
  else .fail .notBool

/-- A truth value as a whole double, which has to lie strictly between the bounds of 64 bits. -/
def boolFloat (x : Binary64) : Checked Bool :=
  match x.toInt? with
  | some i => if i = -2 ^ (63 : Nat) then .fail .notBool else boolInt i
  | none   => .fail .notBool

def bool : Json → Checked Bool
  | .bool b  => .valid b
  | .int i   => boolInt i
  | .float x => boolFloat x
  | .str s   => boolText s
  | _        => .fail .notBool

/-- A double.  A whole number beyond its range is infinite if `saturate`, and refused
otherwise. -/
def float (saturate : Bool) : Json → Checked Binary64
  | .float x => .valid x
  | .int i   =>
      let x := Binary64.ofInt i
      if x.isFinite || saturate then .valid x else .fail .notFloat
  | .bool b  => .valid (.ofInt (if b then 1 else 0))
  | .str s   => match Number.readFloat? s with
      | some x => .valid x
      | none   => .fail .badFloat
  | _        => .fail .notFloat

def nullable {α : Type} (check : Json → Checked α) : Json → Checked (Option α)
  | .null => .valid none
  | v     => (check v).map some

def list {α : Type} (check : Json → Checked α) : Json → Checked (List α)
  | .arr xs => Checked.all (fun (v, i) => (check v).within (.index i)) xs.zipIdx
  | _       => .fail .notList

/-- An object with any keys and checked values.  Every entry is checked; of a repeated key the
last one counts. -/
def table {α : Type} (check : Json → Checked α) : Json → Checked (List (String × α))
  | .obj es =>
      (Checked.all (fun (k, v) => ((check v).within (.key k)).map fun a => (k, a)) es).map
        (Assoc.merge [])
  | _       => .fail .notTable

/-- Any value, without its repeated keys. -/
def free (v : Json) : Checked Json := .valid v.distinct

/-! ### Records -/

/-- The fields of a record as they are given. -/
abbrev Fields := List (String × Json)

def record {α : Type} (check : Fields → Checked α) : Json → Checked α
  | .obj es => check es
  | _       => .fail .notRecord

/-- The first of some keys that is present, with its last value. -/
def find? (fields : Fields) (keys : List String) : Option (String × Json) :=
  keys.findSome? fun k => (fields.reverse.lookup k).map fun v => (k, v)

/-- A field that must be there; the first of its keys is the one it is reported by. -/
def field {α : Type} (fields : Fields) (keys : List String) (check : Json → Checked α) :
    Checked α :=
  match find? fields keys with
  | some (k, v) => (check v).within (.key k)
  | none        => .invalid [⟨(keys.take 1).map .key, .missing⟩]

/-- A field that may be left out. -/
def fieldOr {α : Type} (fields : Fields) (keys : List String) (default : α)
    (check : Json → Checked α) : Checked α :=
  match find? fields keys with
  | some (k, v) => (check v).within (.key k)
  | none        => .valid default

end VisualScript.Check
