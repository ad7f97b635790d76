/-!
# Assoc — ordered tables

Tables kept as lists of key and value, in the order in which the keys were first seen.  Looking a
key up is `List.lookup`.
-/

namespace VisualScript.Assoc

variable {κ : Type u} {β : Type v} [BEq κ]

/-- Gives `key` the value `value`: in its place if it is present, at the end otherwise. -/
def set (key : κ) (value : β) : List (κ × β) → List (κ × β)
  | []           => [(key, value)]
  | (k, v) :: xs => if k == key then (k, value) :: xs else (k, v) :: set key value xs

/-- Sets every entry of `news`, one after the other. -/
def merge (old news : List (κ × β)) : List (κ × β) :=
  news.foldl (fun table e => set e.1 e.2 table) old

def keys (table : List (κ × β)) : List κ := table.map Prod.fst

def contains (key : κ) (table : List (κ × β)) : Bool := table.any (·.1 == key)

end VisualScript.Assoc
