import VisualScript.Number.Reader
import VisualScript.Record.Check
import VisualScript.Text.Lowercase

/-!
# Settings

The settings of the compiler and how they are read from environment variables.
-/

namespace VisualScript

structure Settings where
  editorVersion    : String := "0.1.0"
  formatVersion    : String := "1.0.0"
  scriptExtension  : String := ".nut"
  indentWidth      : Int := 4
  defaultOutputDir : Option String := none
  embedProjectData : Bool := false
  /-- How many characters of an embedded project go on one line. -/
  chunkSize        : Int := 80
  logLevel         : String := "INFO"

namespace Settings

/-- The value of a variable; the case of its name does not matter, and the last of several
spellings wins. -/
def valueOf? (env : List (String × String)) (name : String) : Option String :=
  (env.reverse.find? fun (k, _) => Text.lowercase k == Text.lowercase name).map Prod.snd

/-- The capital of a letter whose capital is an ASCII letter: those, and the dotless i and the
long s. -/
def asciiCapital (c : Char) : Char :=
  if c = 'ı' then 'I' else if c = 'ſ' then 'S' else c.toUpper

def logLevels : List String :=
  ["CRITICAL", "FATAL", "ERROR", "WARN", "WARNING", "INFO", "DEBUG", "NOTSET"]

/-- A known level in capitals; an unknown one becomes `INFO`. -/
def readLogLevel (s : String) : String :=
  let level := String.ofList (s.toList.map asciiCapital)
  if logLevels.contains level then level else "INFO"

def readExtension (s : String) : Checked String :=
  let low := Text.lowercase s
  if [".nut", ".gnut"].contains low then .valid low
  else .fail (.rejected ("script extension '" ++ s ++ "' not in ['.nut', '.gnut']"))

def readInt (s : String) : Checked Int :=
  match Number.readInt s with
  | .ok i             => .valid i
  | .error .malformed => .fail .badInt
  | .error .tooLong   => .fail .longInt

/-- A setting read from the variable `name`, reported as `label`. -/
def setting {α : Type} (env : List (String × String)) (name label : String) (default : α)
    (read : String → Checked α) : Checked α :=
  match valueOf? env name with
  | some s => (read s).within (.key label)
  | none   => .valid default

/-- The settings under the given environment variables. -/
def ofEnvironment (env : List (String × String)) : Checked Settings :=
  let named {α : Type} (name : String) (default : α) (read : String → Checked α) : Checked α :=
    setting env name name default read
  Settings.mk <$> named "MODSTUDIO_EDITOR_VERSION" "0.1.0" .valid
    <*> named "MODSTUDIO_PROJECT_FORMAT_VERSION" "1.0.0" .valid
    <*> named "MODSTUDIO_SCRIPT_EXTENSION" ".nut" readExtension
    <*> named "MODSTUDIO_INDENT_WIDTH" 4 readInt
    <*> named "MODSTUDIO_OUTPUT_DIR" none (.valid ∘ some)
    <*> named "MODSTUDIO_EMBED_PROJECT_DATA" false Check.boolText
    <*> setting env "PROJECT_DATA_CHUNK_SIZE" "project_data_chunk_size" 80 readInt
    <*> named "MODSTUDIO_LOG_LEVEL" "INFO" (.valid ∘ readLogLevel)

end Settings

end VisualScript
