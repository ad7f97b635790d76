import VisualScript.Script.Context
import VisualScript.Text.Lines

/-!
# Manifest — Registration

The list of scripts, each registered under the clause of the virtual machines it runs in.
-/

namespace VisualScript.Registration

/-- The clauses that come first, in this order. -/
def clauseOrder : List String :=
  ["SERVER || CLIENT || UI", "SERVER || CLIENT", "SERVER", "CLIENT", "UI"]

/-- The paths of each clause, clauses in the order in which they are first seen. -/
def bySeen (entries : List (String × ScriptContext)) : List (String × List String) :=
  entries.foldl
    (fun groups (path, c) =>
      Assoc.set c.clause ((groups.lookup c.clause).getD [] ++ [path]) groups) []

/-- The paths of each clause: the known clauses in their order, then the others as first seen. -/
def groups (entries : List (String × ScriptContext)) : List (String × List String) :=
  let seen := bySeen entries
  clauseOrder.filterMap (fun c => (seen.lookup c).map fun paths => (c, paths)) ++
    seen.filter fun (c, _) => !clauseOrder.contains c

def groupLines : String × List String → List String
  | (clause, paths) =>
      ["When: \"" ++ clause ++ "\"", "Scripts:", "["] ++ paths.map ("\t" ++ ·) ++ ["]", ""]

def text (entries : List (String × ScriptContext)) : String :=
  Text.joinLines ((groups entries).flatMap groupLines)

end VisualScript.Registration
