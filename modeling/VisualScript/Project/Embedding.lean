import VisualScript.Project.Reader
import VisualScript.Project.Writer
import VisualScript.Text.Base64
import VisualScript.Text.Lines
import VisualScript.Text.Occurrence

/-!
# Project — Embedding

A project carried along in a generated script: its JSON text in base 64, cut into comment lines
between two markers, and how it is found again.
-/

namespace VisualScript.Embedding

def beginMarker : String := "// @modstudio-project-data-begin"

def endMarker : String := "// @modstudio-project-data-end"

/-- The text cut into pieces of `size` characters; `fuel` bounds their number. -/
def chunksOf (size : Nat) : (fuel : Nat) → List Char → List (List Char)
  | 0,        _       => []
  | _,        []      => []
  | fuel + 1, c :: cs => (c :: cs).take size :: chunksOf size fuel ((c :: cs).drop size)

/-- The lines of a text: pieces of the given size, and none at all for a negative size. -/
def chunks (size : Int) (cs : List Char) : List (List Char) :=
  if size < 0 then [] else chunksOf size.toNat cs.length cs

/-- The text that carries a project. -/
def encode (e : Envelope) : List Char := Text.Base64.encode e.text.toUTF8.toList

/-- The size of the lines: the given one, or that of the settings when none or zero is given. -/
def chunkSize (settings : Settings) (given : Option Int) : Int :=
  match given with
  | some n => if n = 0 then settings.chunkSize else n
  | none   => settings.chunkSize

/-- Why a project cannot be embedded. -/
inductive Obstacle where
  /-- A value in the project nests too deep to be written. -/
  | tooDeep
  /-- The lines would have no characters. -/
  | emptyLines
deriving DecidableEq, Repr

def Obstacle.message : Obstacle → String
  | tooDeep    => "Error serializing to JSON: ValueError: Maximum serialization depth exceeded"
  | emptyLines => "range() arg 3 must not be zero"

/-- The code with the project behind it. -/
def embed (settings : Settings) (given : Option Int) (code : String) (p : Project) :
    Except Obstacle String :=
  let size := chunkSize settings given
  if !p.isWritable then .error .tooDeep
  else if size = 0 then .error .emptyLines
  else
    let body := chunks size (encode ⟨settings.formatVersion, p⟩)
    let lines := [beginMarker] ++ body.map (fun c => "// " ++ String.ofList c) ++ [endMarker, ""]
    .ok (code ++ "\n\n" ++ Text.joinLines lines)

/-- The text between the first begin marker and the first end marker. -/
def between? (code : List Char) : Option (List Char) :=
  match Text.position? beginMarker.toList code, Text.position? endMarker.toList code with
  | some b, some e =>
      if e < b then none
      else
        let start := b + beginMarker.length
        some ((code.drop start).take (e - start))
  | _, _ => none

/-- What a comment line carries; lines that are no comment carry nothing. -/
def payload (line : List Char) : List Char :=
  match Text.trimBy Text.isBlank line with
  | '/' :: '/' :: cs => Text.trimBy Text.isBlank cs
  | _                => []

/-- The project carried by a text in base 64. -/
def decode? (r : Reading) (cs : List Char) : Option Project := do
  let bytes ← Text.Base64.decode? cs
  let text ← String.fromUTF8? (ByteArray.mk bytes.toArray)
  match r.ofText Reading.envelope text with
  | .valid e   => some e.project
  | .invalid _ => none

/-- The project embedded in a script, if there is one that can be read. -/
def extract? (r : Reading) (code : String) : Option Project := do
  let body ← between? code.toList
  decode? r ((Text.splitLines body).flatMap payload)

end VisualScript.Embedding
