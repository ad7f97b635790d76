import VisualScript.Text.Blank
import VisualScript.Text.Letter

/-!
# Script — Name

Names in generated scripts, made from ids and labels that may hold any text.
-/

namespace VisualScript.Name

def isAsciiAlphanumeric (c : Char) : Bool := c.isAlpha || c.isDigit

/-- The maximal runs of ASCII letters and digits. -/
def words (cs : List Char) : List (List Char) :=
  cs.foldr
    (fun c ws => match isAsciiAlphanumeric c, ws with
      | true,  w :: ws => (c :: w) :: ws
      | true,  []      => [[c]]
      | false, ws      => [] :: ws)
    [[]] |>.filter (!·.isEmpty)

def capitalize : List Char → List Char
  | []      => []
  | c :: cs => c.toUpper :: cs

/-- The words of a module id, capitalised and joined: `my_mod` gives `MyMod`.  The result starts
with a letter: `Mod` stands in for an empty name and in front of a digit. -/
def modulePrefix (id : String) : String :=
  match (words id.toList).flatMap capitalize with
  | []      => "Mod"
  | c :: cs => String.ofList (if c.isDigit then 'M' :: 'o' :: 'd' :: c :: cs else c :: cs)

/-- The text as one word: what is no letter, number or underscore becomes an underscore, and an
underscore is put in front of a leading digit. -/
def identifier (text : String) : String :=
  match (Text.trim text).toList.map fun c => if Text.isWordChar c then c else '_' with
  | []      => "_"
  | c :: cs => String.ofList (if Text.isDigit c then '_' :: c :: cs else c :: cs)

/-- The name of the function that runs the body of a thread node. -/
def threadFunction (node : String) : String :=
  "__Thread_" ++ String.ofList (node.toList.map fun c => if isAsciiAlphanumeric c then c else '_')

end VisualScript.Name
