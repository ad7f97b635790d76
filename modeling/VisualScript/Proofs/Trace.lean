import VisualScript.Build.Run
import VisualScript.Proofs.Tables

/-!
# Proofs — Trace

What a build asks of a store.  `Storage.traced` is a store that keeps a record of the calls that may
change it; the record is all it adds (`Action.performAll_traced`).  The calls of a build follow its
plan up to the first one that fails (`Trace.Follows`), and there are none before everything that the
build needs is there (`Job.Ready`): a build that is not ready leaves the store alone
(`Job.run_trace`).  The plan itself goes from the old folder to the directories to the files, each
of which is written where a directory has been made for it (`Plan.Staged`).
-/

namespace VisualScript

/-- A request that may change a store. -/
inductive Call where
  | deleteDirectory (path : String)
  | createDirectory (path : String)
  | write (path content : String)
deriving DecidableEq, Repr

/-- The path of the file a call writes. -/
def Call.file? : Call → Option String
  | .write path _ => some path
  | _             => none

/-- The call an action makes. -/
def Action.call : Action → Call
  | .deleteDirectory path => .deleteDirectory path
  | .createDirectory path => .createDirectory path
  | .write a              => .write a.path a.content

/-- Calls in the order in which they were made, each with whether it succeeded. -/
abbrev Trace := List (Call × Bool)

namespace Trace

/-- The paths of the files that were written. -/
def files (t : Trace) : List String := t.filterMap fun c => if c.2 then c.1.file? else none

/-- The calls of a plan up to the first that fails, with the failure. -/
inductive Follows (plan : List Action) (t : Trace) : Option StepFailure → Prop where
  | whole (calls : t = plan.map fun a => (a.call, true)) : Follows plan t none
  | stopped {before after : List Action} {a : Action} (reason : String)
      (split : plan = before ++ a :: after)
      (calls : t = before.map (fun a => (a.call, true)) ++ [(a.call, false)]) :
      Follows plan t (some (a.failure reason))

theorem Follows.cons {plan : List Action} {t : Trace} {failure : Option StepFailure} (a : Action)
    (h : Follows plan t failure) : Follows (a :: plan) ((a.call, true) :: t) failure := by
  cases h with
  | whole calls => exact .whole (by rw [calls, List.map_cons])
  | @stopped before after b reason split calls =>
    exact @Follows.stopped _ _ (a :: before) after b reason (by rw [split, List.cons_append])
      (by rw [calls, List.map_cons, List.cons_append])

theorem files_calls (plan : List Action) :
    files (plan.map fun a => (a.call, true)) = plan.filterMap Action.written? := by
  rw [files, List.filterMap_map]
  refine List.filterMap_congr fun a _ => ?_
  cases a <;> rfl

end Trace

section
variable {σ : Type} (s : Storage σ)

/-- A store that keeps a record of the calls that may change it. -/
def Storage.traced : Storage (σ × Trace) where
  select := fun (state, t) =>
    let (answer, state) := s.select state
    (answer, state, t)
  createDirectory := fun path (state, t) =>
    let (answer, state) := s.createDirectory path state
    (answer, state, t ++ [(.createDirectory path, answer.isOk)])
  deleteDirectory := fun path (state, t) =>
    let (answer, state) := s.deleteDirectory path state
    (answer, state, t ++ [(.deleteDirectory path, answer.isOk)])
  write := fun path content (state, t) =>
    let (outcome, state) := s.write path content state
    (outcome, state, t ++ [(Call.write path content, decide (outcome = .done))])

theorem Storage.traced_select (state : σ) (t : Trace) :
    s.traced.select (state, t) = ((s.select state).1, (s.select state).2, t) := rfl

theorem Storage.traced_write (path content : String) (state : σ) (t : Trace) :
    s.traced.write path content (state, t) =
      ((s.write path content state).1, (s.write path content state).2,
        t ++ [(.write path content, decide ((s.write path content state).1 = .done))]) := rfl

namespace Action

/-- An action makes one call, and is answered as without the record. -/
theorem request_traced (a : Action) (state : σ) (t : Trace) :
    a.request s.traced (state, t) =
      ((a.request s state).1, (a.request s state).2,
        t ++ [(a.call, (a.request s state).1.isOk)]) := by
  cases a with
  | deleteDirectory path => rfl
  | createDirectory path => rfl
  | write a =>
    rw [request, request, Storage.traced_write]
    rcases s.write a.path a.content state with ⟨outcome, state'⟩
    cases outcome <;> rfl

theorem perform_traced (a : Action) (state : σ) (t : Trace) :
    a.perform s.traced (state, t) =
      ((a.perform s state).1, (a.perform s state).2,
        t ++ [(a.call, (a.perform s state).1.isNone)]) := by
  rw [perform, perform, request_traced]
  rcases a.request s state with ⟨answer, state'⟩
  cases answer <;> rfl

theorem perform_failure {a : Action} {state : σ} {f : StepFailure}
    (h : (a.perform s state).1 = some f) : ∃ reason, f = a.failure reason := by
  rw [perform] at h
  split at h
  · cases h
  · exact ⟨_, (Option.some.inj h).symm⟩

theorem files_call (a : Action) : Trace.files [(a.call, true)] = a.written?.toList := by
  cases a <;> rfl

/-- **Actions are performed one at a time until one fails**, whatever the store does. -/
theorem performAll_traced : ∀ (plan : List Action) (state : σ) (t : Trace),
    ∃ t', performAll s.traced plan (state, t) =
        ((performAll s plan state).1, (performAll s plan state).2, t ++ t') ∧
      (performAll s plan state).1.1 = t'.files ∧
      t'.Follows plan (performAll s plan state).1.2
  | [], state, t => ⟨[], by simp [performAll], rfl, .whole rfl⟩
  | a :: as, state, t => by
    rw [performAll, performAll, perform_traced]
    rcases ha : a.perform s state with ⟨failure, state'⟩
    cases failure with
    | some f =>
      obtain ⟨reason, rfl⟩ := perform_failure s (by rw [ha])
      exact ⟨[(a.call, false)], rfl, rfl, @Trace.Follows.stopped _ _ [] as a reason rfl rfl⟩
    | none =>
      obtain ⟨t', hrun, hfiles, hfollows⟩ :=
        performAll_traced as state' (t ++ [(a.call, true)])
      refine ⟨(a.call, true) :: t', ?_, ?_, hfollows.cons a⟩
      · simp only [Option.isNone_none, hrun, List.append_assoc, List.singleton_append]
      · have hcons : Trace.files ((a.call, true) :: t') =
            Trace.files [(a.call, true)] ++ t'.files := by
          rw [Trace.files, Trace.files, Trace.files, ← List.filterMap_append,
            List.singleton_append]
        rw [hcons, files_call, ← hfiles]

end Action

end

/-! ### The plan -/

namespace Plan

variable {l : ModLayout} {m : ModSettings} {p : Project} {scripts : List BuiltScript}

/-- How the actions of a build follow one another. -/
structure Staged (l : ModLayout) (p : Project) (scripts : List BuiltScript)
    (plan : List Action) : Prop where
  /-- The old folder goes first, and nothing else is deleted. -/
  cleared : ∃ rest, plan = .deleteDirectory l.modDir :: rest ∧
    ∀ path, .deleteDirectory path ∉ rest
  /-- The files come kind by kind. -/
  files   : plan.filterMap Action.written? =
    scripts.map (fun s => l.vscripts ++ "/" ++ s.path) ++
      p.weapons.map (fun f => (weapon l f).path) ++
      p.interfaces.map (fun f => (interface l f).path) ++
      p.localizations.map (fun f => l.localization ++ "/" ++ f.fileName) ++
      [l.vscripts ++ "/" ++ "scripts.rson", l.modDir ++ "/" ++ "mod.vdf"]
  /-- The directory of a file has been created before. -/
  based   : ∀ {before a after}, plan = before ++ .write a :: after → .createDirectory a.dir ∈ before
  /-- A directory below it has been created just before. -/
  nested  : ∀ {before a after}, plan = before ++ .write a :: after → a.parent ≠ a.dir →
    before.getLast? = some (.createDirectory a.parent)

theorem dir_mem_directories {a : Artifact} (h : a ∈ artifacts l m p scripts) :
    a.dir ∈ directories l p := by
  simp only [artifacts, List.mem_append, List.mem_map, List.mem_cons, List.not_mem_nil,
    or_false] at h
  rcases h with (((⟨s, -, rfl⟩ | ⟨f, hf, rfl⟩) | ⟨f, hf, rfl⟩) | ⟨f, hf, rfl⟩) | rfl | rfl
  · simp [directories]
  · simp [directories, weapon, List.ne_nil_of_mem hf]
  · cases hk : f.kind with
    | menu =>
      have hany : p.interfaces.any (·.kind = .menu) = true :=
        List.any_eq_true.mpr ⟨f, hf, by simp [hk]⟩
      simp [directories, interface, hk, hany]
    | res => simp [directories, interface, hk, List.ne_nil_of_mem hf]
  · by_cases hi : p.interfaces = []
    · simp [directories, hi, List.ne_nil_of_mem hf]
    · simp [directories, hi, List.ne_nil_of_mem hf]
  · simp [directories]
  · simp [directories]

/-- Each file is written after the directory below its base, if there is one. -/
theorem of_flatMap_actions {a : Artifact} {after : List Action} : ∀ {as : List Artifact}
    {before : List Action}, as.flatMap Artifact.actions = before ++ .write a :: after →
      a ∈ as ∧ (a.parent ≠ a.dir → before.getLast? = some (.createDirectory a.parent)) := by
  intro as
  induction as with
  | nil =>
    intro before h
    simp at h
  | cons b as ih =>
    intro before h
    have hlater : ∀ {first rest : List Action},
        as.flatMap Artifact.actions = rest ++ .write a :: after →
        a ∈ b :: as ∧ (a.parent ≠ a.dir →
          (first ++ rest).getLast? = some (.createDirectory a.parent)) := by
      intro first rest h
      obtain ⟨hm, hlast⟩ := ih h
      refine ⟨.tail _ hm, fun hne => ?_⟩
      rw [List.getLast?_append, hlast hne, Option.some_or]
    rw [List.flatMap_cons, Artifact.actions] at h
    split at h
    · rename_i hb
      cases before with
      | nil =>
        cases h
        exact ⟨.head _, fun hne => absurd hb hne⟩
      | cons c rest => exact @hlater [c] rest (List.cons.inj h).2
    · cases before with
      | nil => cases h
      | cons c before =>
        have htail := (List.cons.inj h).2
        cases before with
        | nil =>
          cases h
          exact ⟨.head _, fun _ => rfl⟩
        | cons d rest => exact @hlater [c, d] rest (List.cons.inj htail).2

theorem written_actions (a : Artifact) : a.actions.filterMap Action.written? = [a.path] := by
  unfold Artifact.actions
  split <;> rfl

/-- **A build clears, then makes directories, then writes.** -/
theorem staged (l : ModLayout) (m : ModSettings) (p : Project) (scripts : List BuiltScript) :
    Staged l p scripts (actions l m p scripts) := by
  -- no file is written before the directories are there
  have hsplit : ∀ {before a after}, actions l m p scripts = before ++ .write a :: after →
      ∃ mid, before = .deleteDirectory l.modDir :: (directories l p).map .createDirectory ++ mid ∧
        a ∈ artifacts l m p scripts ∧
          (a.parent ≠ a.dir → mid.getLast? = some (.createDirectory a.parent)) := by
    intro before a after h
    rw [actions, ← List.cons_append] at h
    rcases List.append_eq_append_iff.mp h with ⟨mid, hbefore, hmid⟩ | ⟨mid, hmid, h⟩
    · exact ⟨mid, hbefore, of_flatMap_actions hmid⟩
    · cases mid with
      | nil => exact ⟨[], by simpa using hmid.symm, @of_flatMap_actions a after _ [] h.symm⟩
      | cons c mid =>
        have hm : .write a ∈ .deleteDirectory l.modDir ::
            (directories l p).map Action.createDirectory := by
          rw [hmid, (List.cons.inj h).1]
          simp
        simp at hm
  constructor
  · refine ⟨_, rfl, fun path hm => ?_⟩
    rcases List.mem_append.mp hm with hm | hm
    · simp at hm
    · obtain ⟨a, -, hm⟩ := List.mem_flatMap.mp hm
      unfold Artifact.actions at hm
      split at hm <;> simp at hm
  · have hdirs : (directories l p).filterMap (Action.written? ∘ .createDirectory) = [] :=
      List.filterMap_eq_nil_iff.mpr fun _ _ => rfl
    rw [actions, List.filterMap_cons_none rfl, List.filterMap_append, List.filterMap_map, hdirs,
      List.filterMap_flatMap]
    simp only [written_actions, ← List.map_eq_flatMap, artifacts, List.map_append, List.map_map]
    rfl
  · intro before a after h
    obtain ⟨mid, rfl, hm, -⟩ := hsplit h
    simp [dir_mem_directories hm]
  · intro before a after h hne
    obtain ⟨mid, rfl, -, hlast⟩ := hsplit h
    rw [List.getLast?_append, hlast hne, Option.some_or]

end Plan

/-! ### The scripts -/

namespace Job

variable (j : Job)

/-- The script files of the project. -/
def files : List ScriptFile := j.project.scriptFiles j.project.metadata.modifiedAt

/-- A script file becomes a script: its graph has no fault, and the header and the project can be
written to its text. -/
def Generates (f : ScriptFile) (b : BuiltScript) : Prop :=
  ∃ r code text, j.report f = .ok r ∧ r.result = .ok code ∧ j.scriptText code = .ok text ∧
    b = ⟨scriptFileName j.settings f.name, text, r.context⟩

variable {j}

theorem errors_generateAll : ∀ (fs : List ScriptFile) (g : Generated), g.errors ≠ [] →
    (j.generateAll fs g).errors ≠ []
  | [], _, h => h
  | f :: fs, g, h => by
    rw [generateAll]
    split
    · exact h
    · split
      · exact errors_generateAll fs _ (by simp)
      · split
        · exact h
        · exact errors_generateAll fs _ h

/-- Either every script file becomes a script, or one does not and the generation says so. -/
theorem generateAll_cases : ∀ (fs : List ScriptFile) (g : Generated), g.broken = none →
    (∃ bs, List.Forall₂ j.Generates fs bs ∧ (j.generateAll fs g).scripts = g.scripts ++ bs ∧
        (j.generateAll fs g).errors = g.errors ∧ (j.generateAll fs g).broken = none) ∨
      (∃ f ∈ fs, ∀ b, ¬ j.Generates f b) ∧
        ((j.generateAll fs g).broken ≠ none ∨ (j.generateAll fs g).errors ≠ [])
  | [], g, h => .inl ⟨[], .nil, by simp [generateAll], rfl, h⟩
  | f :: fs, g, h => by
    rw [generateAll]
    split
    case h_1 e hreport =>
      refine .inr ⟨⟨f, List.mem_cons_self, ?_⟩, .inl (by simp)⟩
      rintro b ⟨r, code, text, hr, -⟩
      rw [hreport] at hr
      cases hr
    case h_2 r hreport =>
      split
      case h_1 fault hresult =>
        refine .inr ⟨⟨f, List.mem_cons_self, ?_⟩, .inr (errors_generateAll fs _ (by simp))⟩
        rintro b ⟨r', code, text, hr, hcode, -⟩
        rw [hreport] at hr
        cases hr
        rw [hresult] at hcode
        cases hcode
      case h_2 code hresult =>
        split
        case h_1 e htext =>
          refine .inr ⟨⟨f, List.mem_cons_self, ?_⟩, .inl (by simp)⟩
          rintro b ⟨r', code', text, hr, hcode, ht, -⟩
          rw [hreport] at hr
          cases hr
          rw [hresult] at hcode
          cases hcode
          rw [htext] at ht
          cases ht
        case h_2 text htext =>
          -- this file becomes a script; the files after it decide
          have hf : j.Generates f ⟨scriptFileName j.settings f.name, text, r.context⟩ :=
            ⟨r, code, text, hreport, hresult, htext, rfl⟩
          rcases generateAll_cases fs
              { g with
                scripts := g.scripts ++ [⟨scriptFileName j.settings f.name, text, r.context⟩]
                clauses := Assoc.set (scriptFileName j.settings f.name) r.context.clause
                  g.clauses } h with
            ⟨bs, hbs, hscripts, herrors, hbroken⟩ | ⟨⟨f', hf', hnot⟩, hsaid⟩
          · exact .inl ⟨_, .cons hf hbs, by rw [hscripts, List.append_assoc]; rfl, herrors, hbroken⟩
          · exact .inr ⟨⟨f', List.mem_cons_of_mem _ hf', hnot⟩, hsaid⟩

theorem generated_cases :
    (List.Forall₂ j.Generates j.files j.generated.scripts ∧ j.generated.errors = [] ∧
        j.generated.broken = none) ∨
      (∃ f ∈ j.files, ∀ b, ¬ j.Generates f b) ∧
        (j.generated.broken ≠ none ∨ j.generated.errors ≠ []) := by
  rcases @generateAll_cases j j.files {} rfl with ⟨bs, hbs, hscripts, herrors, hbroken⟩ | h
  · refine .inl ⟨?_, herrors, hbroken⟩
    rwa [show j.generated.scripts = bs from hscripts]
  · exact .inr h

/-! ### The build -/

variable {σ : Type}

/-- Where the files of the build go. -/
def layout (j : Job) (dir : String) : ModLayout :=
  .make dir j.modSettings.author j.modSettings.name

/-- What a build needs before it touches the store: nothing stands against it, there is an output
directory, and every script file becomes a script. -/
structure Ready (j : Job) (s : Storage σ) (state : σ) (dir : String) : Prop where
  free    : j.obstacle? = none
  dir     : (j.outputDir s state).1 = .ok (some dir)
  scripts : ∀ f ∈ j.files, ∃ b, j.Generates f b

theorem outputDir_traced (s : Storage σ) (state : σ) (t : Trace) :
    j.outputDir s.traced (state, t) =
      ((j.outputDir s state).1, (j.outputDir s state).2, t) := by
  rw [outputDir, outputDir]
  cases nonempty? j.options.outputDir with
  | some dir => rfl
  | none =>
    simp only [Storage.traced_select]
    rcases s.select state with ⟨answer, state'⟩
    cases answer <;> rfl

/-- In a known directory, a build whose scripts are there carries out its plan. -/
theorem runIn_traced (s : Storage σ) (dir : String) (state : σ) :
    ∃ t : Trace,
      j.runIn s.traced dir (state, []) = ((j.runIn s dir state).1, (j.runIn s dir state).2, t) ∧
      (j.runIn s dir state).1.filesCreated = t.files ∧
      ((List.Forall₂ j.Generates j.files j.generated.scripts ∧
          ∃ failure, t.Follows (j.plan dir) failure ∧
            (j.runIn s dir state).1.success = failure.isNone ∧
            (j.runIn s dir state).1.failedPath = failure.map (·.path)) ∨
        (∃ f ∈ j.files, ∀ b, ¬ j.Generates f b) ∧ t = [] ∧
          (j.runIn s dir state).1.success = false) := by
  rcases @generated_cases j with ⟨hscripts, herrors, hbroken⟩ | ⟨hnot, hsaid⟩
  · obtain ⟨t, hrun, hfiles, hfollows⟩ := Action.performAll_traced s (j.plan dir) state []
    rw [runIn, runIn]
    simp only [hbroken, herrors, hrun, List.nil_append]
    exact ⟨t, rfl, hfiles, .inl ⟨hscripts, _, hfollows, rfl, rfl⟩⟩
  · refine ⟨[], ?_⟩
    rw [runIn, runIn]
    cases hbroken : j.generated.broken with
    | some e => exact ⟨rfl, rfl, .inr ⟨hnot, rfl, rfl⟩⟩
    | none =>
      cases herrors : j.generated.errors with
      | cons e es => exact ⟨rfl, rfl, .inr ⟨hnot, rfl, rfl⟩⟩
      | nil => exact absurd hsaid (by simp [hbroken, herrors])

section
variable {s : Storage σ} {state : σ} {dir : String}

/-- A build that succeeds was ready. -/
theorem ready_of_success (h : (j.run s state).1.success = true) : ∃ dir, j.Ready s state dir := by
  rw [run] at h
  cases hfree : j.obstacle? with
  | some f =>
    rw [hfree] at h
    cases h
  | none =>
    rw [hfree] at h
    rcases hdir : j.outputDir s state with ⟨answer, state'⟩
    rw [hdir] at h
    cases answer with
    | error e => cases h
    | ok chosen =>
      cases chosen with
      | none => cases h
      | some dir =>
        obtain ⟨t, -, -, ⟨hscripts, -⟩ | ⟨-, -, hfails⟩⟩ := @runIn_traced j σ s dir state'
        · refine ⟨dir, hfree, by rw [hdir], fun f hf => ?_⟩
          obtain ⟨b, -, hb⟩ := exists_of_forall₂ hscripts hf
          exact ⟨b, hb⟩
        · exact absurd (hfails.symm.trans h) Bool.false_ne_true

/-- A build that is ready performs its plan. -/
theorem Ready.performs (h : j.Ready s state dir) :
    List.Forall₂ j.Generates j.files j.generated.scripts ∧
      (j.run s state).1.success =
        (Action.performAll s (j.plan dir) (j.outputDir s state).2).1.2.isNone ∧
      (j.run s state).1.filesCreated =
        (Action.performAll s (j.plan dir) (j.outputDir s state).2).1.1 ∧
      (j.run s state).2 = (Action.performAll s (j.plan dir) (j.outputDir s state).2).2 := by
  have hdir := h.dir
  rw [run, h.free]
  rcases houtput : j.outputDir s state with ⟨answer, state'⟩
  rw [houtput] at hdir
  obtain rfl : answer = .ok (some dir) := hdir
  rcases @generated_cases j with ⟨hscripts, herrors, hbroken⟩ | ⟨⟨f, hf, hnot⟩, -⟩
  · refine ⟨hscripts, ?_, ?_, ?_⟩ <;> simp only [runIn, hbroken, herrors]
  · obtain ⟨b, hb⟩ := h.scripts f hf
    exact absurd hb (hnot b)

/-- A build that is ready makes the calls of its plan up to the first that fails. -/
theorem Ready.follows (h : j.Ready s state dir) :
    ∃ (t : Trace) (failure : Option StepFailure),
      j.run s.traced (state, []) = ((j.run s state).1, (j.run s state).2, t) ∧
      t.Follows (j.plan dir) failure ∧ (j.run s state).1.success = failure.isNone := by
  have hdir := h.dir
  rw [run, run, h.free]
  simp only [outputDir_traced]
  rcases houtput : j.outputDir s state with ⟨answer, state'⟩
  rw [houtput] at hdir
  obtain rfl : answer = .ok (some dir) := hdir
  obtain ⟨t, hrun, -, ⟨-, failure, hfollows, hsuccess, -⟩ | ⟨⟨f, hf, hnot⟩, -⟩⟩ :=
    @runIn_traced j σ s dir state'
  · exact ⟨t, failure, hrun, hfollows, hsuccess⟩
  · obtain ⟨b, hb⟩ := h.scripts f hf
    exact absurd hb (hnot b)

/-- A build that is ready and succeeds makes all the calls of its plan. -/
theorem Ready.calls_of_success (h : j.Ready s state dir) (hs : (j.run s state).1.success = true) :
    (j.run s.traced (state, [])).2.2 = (j.plan dir).map fun a => (a.call, true) := by
  obtain ⟨t, failure, hrun, hfollows, hsuccess⟩ := h.follows
  obtain rfl : failure = none := Option.isNone_iff_eq_none.mp (hsuccess.symm.trans hs)
  cases hfollows with
  | whole calls =>
    rw [hrun]
    exact calls

end

/-- **A build fails fast.**  However the store answers, a build that is ready makes the calls of its
plan, which clears the old folder, makes the directories and then writes the files, up to the first
that fails; it succeeds if all of them do, else it names the path of the one that failed.  A build
that is not ready makes no call.  In both cases it reports the files that were
written, in order. -/
theorem run_trace (j : Job) (s : Storage σ) (state : σ) :
    ∃ t : Trace, j.run s.traced (state, []) = ((j.run s state).1, (j.run s state).2, t) ∧
      (j.run s state).1.filesCreated = t.files ∧
      ((∃ dir, j.Ready s state dir ∧ List.Forall₂ j.Generates j.files j.generated.scripts ∧
          Plan.Staged (j.layout dir) j.project j.generated.scripts (j.plan dir) ∧
          ∃ failure, t.Follows (j.plan dir) failure ∧
            (j.run s state).1.success = failure.isNone ∧
            (j.run s state).1.failedPath = failure.map (·.path)) ∨
        (∀ dir, ¬ j.Ready s state dir) ∧ t = [] ∧ (j.run s state).1.success = false) := by
  rw [run, run]
  cases hfree : j.obstacle? with
  | some f =>
    exact ⟨[], rfl, rfl, .inr ⟨fun dir h => absurd h.free (by simp [hfree]), rfl, rfl⟩⟩
  | none =>
    simp only [outputDir_traced]
    rcases hdir : j.outputDir s state with ⟨answer, state'⟩
    match answer, hdir with
    | .error e, hdir =>
      exact ⟨[], rfl, rfl, .inr ⟨fun dir h => absurd h.dir (by simp [hdir]), rfl, rfl⟩⟩
    | .ok none, hdir =>
      exact ⟨[], rfl, rfl, .inr ⟨fun dir h => absurd h.dir (by simp [hdir]), rfl, rfl⟩⟩
    | .ok (some dir), hdir =>
      obtain ⟨t, hrun, hfiles, hcases⟩ := @runIn_traced j σ s dir state'
      refine ⟨t, hrun, hfiles, ?_⟩
      rcases hcases with ⟨hscripts, hfollows⟩ | ⟨⟨f, hf, hnot⟩, hnone, hfails⟩
      · refine .inl ⟨dir, ⟨hfree, by rw [hdir], fun f hf => ?_⟩, hscripts, Plan.staged .., hfollows⟩
        obtain ⟨b, -, hb⟩ := exists_of_forall₂ hscripts hf
        exact ⟨b, hb⟩
      · refine .inr ⟨fun dir' h => ?_, hnone, hfails⟩
        obtain ⟨b, hb⟩ := h.scripts f hf
        exact hnot b hb

end Job

end VisualScript
