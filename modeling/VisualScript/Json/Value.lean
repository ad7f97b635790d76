import VisualScript.Assoc
import VisualScript.Number.Binary64

/-!
# Json — Value

JSON values.  Whole numbers and doubles are kept apart, and the entries of an object keep their
order.  An object read from text may hold a key several times; `distinct` keeps the first place
and the last value of each.
-/

namespace VisualScript

inductive Json where
  | null
  | bool (value : Bool)
  | int (value : Int)
  | float (value : Binary64)
  | str (text : String)
  | arr (items : List Json)
  | obj (entries : List (String × Json))
deriving Inhabited

namespace Json

/-- The value of a key of an object. -/
def get? (key : String) : Json → Option Json
  | .obj entries => entries.lookup key
  | _            => none

/-- Whether a value counts as given: not null, not false, not zero and not empty. -/
def isGiven : Json → Bool
  | .null    => false
  | .bool b  => b
  | .int i   => i != 0
  | .float x => match x with
      | .finite _ m _ => m != 0
      | _             => true
  | .str s   => s != ""
  | .arr xs  => !xs.isEmpty
  | .obj es  => !es.isEmpty

/-! ### Repeated keys -/

mutual

/-- The value with every key of an object once: in its first place, with its last value. -/
def distinct : Json → Json
  | .arr xs => .arr (distinctItems xs)
  | .obj es => .obj (Assoc.merge [] (distinctValues es))
  | v       => v

def distinctItems : List Json → List Json
  | []      => []
  | x :: xs => x.distinct :: distinctItems xs

/-- Entries with distinct values; keys may still repeat. -/
def distinctValues : List (String × Json) → List (String × Json)
  | []           => []
  | (k, v) :: es => (k, v.distinct) :: distinctValues es

end

/-- The entries of an object with every key once. -/
def distinctEntries (es : List (String × Json)) : List (String × Json) :=
  Assoc.merge [] (distinctValues es)

/-! ### Nesting -/

mutual

/-- How deep a value nests; one for a scalar and for an empty array or object. -/
def depth : Json → Nat
  | .arr xs => itemsDepth xs + 1
  | .obj es => entriesDepth es + 1
  | _       => 1

def itemsDepth : List Json → Nat
  | []      => 0
  | x :: xs => max x.depth (itemsDepth xs)

def entriesDepth : List (String × Json) → Nat
  | []           => 0
  | (_, v) :: es => max v.depth (entriesDepth es)

end

/-! ### Long numbers -/

mutual

/-- How many digits the longest whole number in a value has. -/
def longest : Json → Nat
  | .int i  => (Nat.toDigits 10 i.natAbs).length
  | .arr xs => itemsLongest xs
  | .obj es => entriesLongest es
  | _       => 0

def itemsLongest : List Json → Nat
  | []      => 0
  | x :: xs => max x.longest (itemsLongest xs)

def entriesLongest : List (String × Json) → Nat
  | []           => 0
  | (_, v) :: es => max v.longest (entriesLongest es)

end

theorem itemsLongest_le {xs : List Json} {n : Nat} :
    itemsLongest xs ≤ n ↔ ∀ x ∈ xs, x.longest ≤ n := by
  induction xs with
  | nil => simp [itemsLongest]
  | cons x xs ih => simp only [itemsLongest, Nat.max_le, ih, List.forall_mem_cons]

theorem entriesLongest_le {es : List (String × Json)} {n : Nat} :
    entriesLongest es ≤ n ↔ ∀ e ∈ es, e.2.longest ≤ n := by
  induction es with
  | nil => simp [entriesLongest]
  | cons e es ih => simp only [entriesLongest, Nat.max_le, ih, List.forall_mem_cons]

end Json

end VisualScript
