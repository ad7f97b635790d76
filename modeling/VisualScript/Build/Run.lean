import VisualScript.Build.Options
import VisualScript.Build.Plan
import VisualScript.Build.Storage
import VisualScript.Project.Embedding
import VisualScript.Project.Header
import VisualScript.Script.Indent
import VisualScript.Script.Module

/-!
# Build — Run

Building a project into a store.  Every script is generated before the store is touched; then the
actions of the plan run one at a time, and the first that fails stops the build.
-/

namespace VisualScript

/-- What a build is made from. -/
structure Job where
  catalog  : Catalog
  settings : Settings
  project  : Project
  options  : BuildOptions

/-- How a build went. -/
structure BuildResult where
  success      : Bool := false
  outputPath   : Option String := none
  error        : Option String := none
  /-- What was being produced when the build failed. -/
  failedPath   : Option String := none
  /-- What is wrong with the scripts. -/
  errors       : List String := []
  filesCreated : List String := []
  /-- The clause of every generated script, by path. -/
  clauses      : List (String × String) := []

/-- A step that failed, with what it was producing. -/
structure StepFailure where
  message : String
  path    : String

/-! ### Generating the scripts -/

/-- The scripts of a project as far as they were generated. -/
structure Generated where
  scripts : List BuiltScript := []
  errors  : List String := []
  clauses : List (String × String) := []
  /-- A failure that is not a fault of a graph; it ends the generation. -/
  broken  : Option String := none

namespace Job

def modSettings (j : Job) : ModSettings := j.project.settings.mod.getD {}

/-- The text of one script with its header and, if asked for, the project. -/
def scriptText (j : Job) (code : String) : Except String String :=
  let code := Header.text j.project.metadata j.options.includeProject ++ code
  if j.options.includeProject then
    (Embedding.embed j.settings none code j.project).mapError (·.message)
  else .ok code

/-- Generates one script and reports on it. -/
def report (j : Job) (f : ScriptFile) : Except Failure Script.Report := do
  let indent ← Indent.ofWidth j.settings.indentWidth
  Script.report j.catalog indent j.modSettings.id f.nodes f.connections

/-- Generates scripts one after the other.  A fault of a graph is noted and the rest goes on. -/
def generateAll (j : Job) : List ScriptFile → Generated → Generated
  | [],      g => g
  | f :: fs, g =>
      let path := scriptFileName j.settings f.name
      match j.report f with
      | .error e => { g with broken := some e.message }
      | .ok r    => match r.result with
          | .error fault =>
              let error := "Failed to compile " ++ path ++ ": " ++ fault.message
              j.generateAll fs { g with errors := g.errors ++ [error] }
          | .ok code => match j.scriptText code with
              | .error e => { g with broken := some e }
              | .ok code =>
                  j.generateAll fs
                    { g with
                      scripts := g.scripts ++ [⟨path, code, r.context⟩]
                      clauses := Assoc.set path r.context.clause g.clauses }

def generated (j : Job) : Generated :=
  j.generateAll (j.project.scriptFiles j.project.metadata.modifiedAt) {}

/-! ### Before anything is done -/

/-- What has to be in order before a build starts. -/
def obstacle? (j : Job) : Option StepFailure :=
  let m := j.modSettings
  let lacking := [("mod id", m.id), ("mod name", m.name), ("mod author", m.author)].find?
    fun (_, value) => Text.isBlankText value
  match lacking with
  | some (label, _) => some ⟨"Mod settings are missing the " ++ label, "mod.vdf"⟩
  | none            =>
      if j.project.isEmpty then some ⟨"Project has no files to compile", "project"⟩ else none

/-- A text, unless it is empty. -/
def nonempty? (s : Option String) : Option String := s.filter (· != "")

/-- The output directory of the options, or the one the store gives; empty ones do not count. -/
def outputDir {σ : Type} (j : Job) (s : Storage σ) (state : σ) :
    Except String (Option String) × σ :=
  match nonempty? j.options.outputDir with
  | some dir => (.ok (some dir), state)
  | none     => match s.select state with
      | (.ok dir, state)  => (.ok (nonempty? dir), state)
      | (.error e, state) => (.error e, state)

end Job

/-! ### Performing the plan -/

namespace Action

/-- What an action produces. -/
def path : Action → String
  | .deleteDirectory path => path
  | .createDirectory path => path
  | .write a              => a.path

/-- An action and its object in words. -/
def words : Action → String
  | .deleteDirectory path => "delete directory " ++ path
  | .createDirectory path => "create directory " ++ path
  | .write a              => "write " ++ a.name

def failure (a : Action) (reason : String) : StepFailure :=
  ⟨"Failed to " ++ a.words ++ ": " ++ reason, a.path⟩

/-- Asks the store for an action; the first result is the reason if it fails. -/
def request {σ : Type} (s : Storage σ) (state : σ) : Action → Except String Unit × σ
  | .deleteDirectory path => s.deleteDirectory path state
  | .createDirectory path => s.createDirectory path state
  | .write a              => match s.write a.path a.content state with
      | (.done, state)           => (.ok (), state)
      | (.refused reason, state) => (.error ((Job.nonempty? reason).getD "unknown error"), state)
      | (.broken e, state)       => (.error e, state)

/-- Performs one action; gives the failure if it fails. -/
def perform {σ : Type} (s : Storage σ) (state : σ) (a : Action) : Option StepFailure × σ :=
  match a.request s state with
  | (.ok (), state)   => (none, state)
  | (.error e, state) => (some (a.failure e), state)

/-- The path of a file that is written. -/
def written? : Action → Option String
  | .write a => some a.path
  | _        => none

/-- Performs actions until one fails; gives the paths written and the failure. -/
def performAll {σ : Type} (s : Storage σ) :
    List Action → σ → (List String × Option StepFailure) × σ
  | [],      state => (([], none), state)
  | a :: as, state => match a.perform s state with
      | (some f, state) => (([], some f), state)
      | (none, state)   =>
          let ((paths, failure), state) := performAll s as state
          ((a.written?.toList ++ paths, failure), state)

end Action

/-! ### The build -/

namespace Job

def unexpected (message : String) : String := "Unexpected error during compilation: " ++ message

def plan (j : Job) (outputDir : String) : List Action :=
  let m := j.modSettings
  Plan.actions (.make outputDir m.author m.name) m j.project j.generated.scripts

/-- Builds into a known output directory. -/
def runIn {σ : Type} (j : Job) (s : Storage σ) (outputDir : String) (state : σ) : BuildResult × σ :=
  let g := j.generated
  let base : BuildResult := { errors := g.errors, clauses := g.clauses }
  match g.broken, g.errors with
  | some e, _      => ({ base with error := some (unexpected e) }, state)
  | none,   e :: _ => ({ base with error := some e }, state)
  | none,   []     =>
      let m := j.modSettings
      let ((paths, failure), state) := Action.performAll s (j.plan outputDir) state
      ({ base with
          success := failure.isNone
          outputPath := some (ModLayout.make outputDir m.author m.name).modDir
          error := failure.map (·.message)
          failedPath := failure.map (·.path)
          filesCreated := paths }, state)

/-- Builds a project. -/
def run {σ : Type} (j : Job) (s : Storage σ) (state : σ) : BuildResult × σ :=
  match j.obstacle? with
  | some f => ({ error := some f.message, failedPath := some f.path }, state)
  | none   => match j.outputDir s state with
      | (.error e, state)       => ({ error := some (unexpected e) }, state)
      | (.ok none, state)       =>
          ({ error := some "No output directory selected", failedPath := some "output directory" },
            state)
      | (.ok (some dir), state) => j.runIn s dir state

end Job

end VisualScript
