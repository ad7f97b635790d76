import VisualScript.Proofs.Comments
import VisualScript.Proofs.Descriptors
import VisualScript.Proofs.Registrations

/-!
# Proofs — Inventory

The manifests of a build against the files it writes, as a reader sees them.  Neither manifest
escapes what it lists.  A line feed in the name of a script ends its line in the registration list,
so the list is read as the scripts exactly if no name has one (`Registration.read_listed_iff`).  A
descriptor is read as it should if its texts are plain (`Descriptor.listedIn_content`).

* `Job.manifests_agree`: what is read from the manifests of a build is what the build writes.
-/

namespace VisualScript

/-! ### What is read from a registration list -/

namespace Registration

/-- No path that has been read has a line feed. -/
def Tidy (r : List (String × List String) × Cursor) : Prop :=
  (∀ g ∈ r.1, ∀ p ∈ g.2, '\n' ∉ p.toList) ∧
    ∀ c ps, r.2 = .inside c ps → ∀ p ∈ ps, '\n' ∉ p.toList

/-- Among the paths of a group, a line ends the group or is a path behind a tab. -/
theorem step_inside {gs : List (String × List String)} {clause : String} {ps : List String}
    {line : List Char} {r : List (String × List String) × Cursor}
    (h : step (gs, .inside clause ps) line = some r) :
    r = (gs ++ [(clause, ps)], .between) ∨
      ∃ path, line = '\t' :: path ∧ r = (gs, .inside clause (ps ++ [String.ofList path])) := by
  by_cases hend : line = [']']
  · subst hend
    exact .inl (Option.some.inj h).symm
  cases line with
  | nil => cases h
  | cons c path =>
    by_cases hc : c = '\t'
    · subst hc
      exact .inr ⟨path, rfl, (Option.some.inj h).symm⟩
    · simp [step, hc] at h

theorem Tidy.step {r r' : List (String × List String) × Cursor} {line : List Char} (h : Tidy r)
    (hline : '\n' ∉ line) (hstep : step r line = some r') : Tidy r' := by
  obtain ⟨gs, cursor⟩ := r
  cases cursor with
  | between =>
    cases line with
    | nil => cases hstep; exact h
    | cons c cs =>
      obtain ⟨clause, -, rfl⟩ := Option.map_eq_some_iff.mp hstep
      exact ⟨h.1, fun _ _ he => by cases he⟩
  | headed clause =>
    rw [Registration.step, Option.ite_none_right_eq_some] at hstep
    obtain ⟨-, rfl⟩ := hstep.imp_right Option.some.inj
    exact ⟨h.1, fun _ _ he => by cases he⟩
  | titled clause =>
    rw [Registration.step, Option.ite_none_right_eq_some] at hstep
    obtain ⟨-, rfl⟩ := hstep.imp_right Option.some.inj
    exact ⟨h.1, fun _ _ he => by cases he; simp⟩
  | inside clause ps =>
    have hps := h.2 clause ps rfl
    rcases step_inside hstep with rfl | ⟨path, rfl, rfl⟩
    · exact ⟨List.forall_mem_append.mpr ⟨h.1, by simpa using hps⟩, fun _ _ he => by cases he⟩
    · refine ⟨h.1, fun _ _ he => ?_⟩
      cases he
      refine List.forall_mem_append.mpr ⟨hps, fun p hp => ?_⟩
      rw [List.mem_singleton.mp hp, String.toList_ofList]
      exact fun hm => hline (.tail _ hm)

theorem Tidy.run {lines : List (List Char)} {r r' : List (String × List String) × Cursor}
    (h : Tidy r) (hlines : ∀ line ∈ lines, '\n' ∉ line)
    (hrun : lines.foldlM Registration.step r = some r') : Tidy r' := by
  induction lines generalizing r with
  | nil => cases hrun; exact h
  | cons line lines ih =>
    obtain ⟨hline, hlines⟩ := List.forall_mem_cons.mp hlines
    rw [List.foldlM_cons] at hrun
    obtain ⟨r₁, hstep, hrun⟩ := Option.bind_eq_some_iff.mp hrun
    exact ih (h.step hline hstep) hlines hrun

/-- No path that is read has a line feed. -/
theorem newline_not_mem_of_read {text : String} {gs : List (String × List String)}
    (h : read? text = some gs) : ∀ g ∈ gs, ∀ p ∈ g.2, '\n' ∉ p.toList := by
  have hempty : Tidy ([], .between) :=
    ⟨fun _ hg => (List.not_mem_nil hg).elim, fun _ _ he => by cases he⟩
  have hlines : ∀ line ∈ text.toList.splitOn '\n', '\n' ∉ line := by
    intro line hline hm
    have hends := @Text.forall_mem_linesBy (· == '\n') text line hline '\n' hm
    simp at hends
  obtain ⟨⟨gs', cursor⟩, hfold, hend⟩ := Option.bind_eq_some_iff.mp h
  have htidy := hempty.run hlines hfold
  cases cursor <;> cases hend
  exact htidy.1

/-- **A registration list is read as its entries exactly if no path has a line feed.** -/
theorem read_listed_iff (entries : List (String × ScriptContext)) :
    (∃ gs, read? (text entries) = some gs ∧
        (listed gs).Perm (entries.map fun e => (e.1, e.2.clause))) ↔
      ∀ e ∈ entries, '\n' ∉ e.1.toList := by
  refine ⟨fun ⟨gs, hread, hperm⟩ e he => ?_, fun h => ⟨_, read?_text h, listed_groups entries⟩⟩
  have hlisted : (e.1, e.2.clause) ∈ listed gs :=
    hperm.mem_iff.mpr (List.mem_map.mpr ⟨e, he, rfl⟩)
  obtain ⟨g, hg, hm⟩ := List.mem_flatMap.mp hlisted
  obtain ⟨p, hp, heq⟩ := List.mem_map.mp hm
  rw [← (Prod.mk.inj heq).1]
  exact newline_not_mem_of_read hread g hg p hp

end Registration

/-! ### The build -/

theorem Plan.write_mem {l : ModLayout} {m : ModSettings} {p : Project} {scripts : List BuiltScript}
    {dir name content : String} (h : ⟨dir, name, content⟩ ∈ artifacts l m p scripts) :
    (Call.write (dir ++ "/" ++ name) content, true) ∈
      (actions l m p scripts).map fun a => (a.call, true) := by
  have hactions : ∀ a : Artifact, .write a ∈ a.actions := by
    intro a
    rw [Artifact.actions]
    split <;> simp
  refine List.mem_map.mpr ⟨.write ⟨dir, name, content⟩, .tail _ (List.mem_append_right _ ?_), rfl⟩
  exact List.mem_flatMap.mpr ⟨_, h, hactions _⟩

namespace Job

variable {σ : Type} {j : Job} {s : Storage σ} {state : σ}

/-- The script files of a project by the names they are written under, each with the clause that is
inferred from its own nodes. -/
def listing (j : Job) : List (String × String) :=
  j.files.map fun f =>
    (scriptFileName j.settings f.name, (ScriptContext.ofNodes j.catalog f.nodes).clause)

theorem Generates.listed {f : ScriptFile} {b : BuiltScript} (h : j.Generates f b) :
    (b.path, b.context.clause) =
      (scriptFileName j.settings f.name, (ScriptContext.ofNodes j.catalog f.nodes).clause) := by
  obtain ⟨r, code, text, hreport, -, -, rfl⟩ := h
  rw [Job.report] at hreport
  obtain ⟨indent, -, hreport⟩ := bind_eq_ok.mp hreport
  rw [Script.context_report hreport]

/-- A build that succeeds has made all the calls of its plan. -/
theorem run_traced_of_success (h : (j.run s state).1.success = true) :
    ∃ dir, (j.run s.traced (state, [])).2.2 = (j.plan dir).map (fun a => (a.call, true)) ∧
      List.Forall₂ j.Generates j.files j.generated.scripts := by
  obtain ⟨dir, hready⟩ := ready_of_success h
  exact ⟨dir, hready.calls_of_success h, hready.performs.1⟩

/-- The manifests among the calls of a build are read as what the build writes. -/
structure Manifested (j : Job) (l : ModLayout) (t : Trace) : Prop where
  /-- The files that are written: scripts, weapons, interface files, token tables, manifests. -/
  files : t.files =
    j.listing.map (fun e => l.vscripts ++ "/" ++ e.1) ++
      j.project.weapons.map (fun f => (Plan.weapon l f).path) ++
      j.project.interfaces.map (fun f => (Plan.interface l f).path) ++
      j.project.localizations.map (fun f => l.localization ++ "/" ++ f.fileName) ++
      [l.vscripts ++ "/" ++ "scripts.rson", l.modDir ++ "/" ++ "mod.vdf"]
  /-- The registration list is read as the scripts, each once and under its own clause, exactly if
  no script has a line feed in its name. -/
  scripts : ∃ text, (.write (l.vscripts ++ "/" ++ "scripts.rson") text, true) ∈ t ∧
    ((∃ groups, Registration.read? text = some groups ∧
        (Registration.listed groups).Perm j.listing) ↔
      ∀ e ∈ j.listing, '\n' ∉ e.1.toList)
  /-- From a descriptor of plain texts a list is read without any path twice, and with a pattern
  that gives the path of each token table and the enabled paths of the mod settings. -/
  tables : ∃ text, (.write (l.modDir ++ "/" ++ "mod.vdf") text, true) ∈ t ∧
    ∀ d, Descriptor.Plain d j.modSettings j.project.localizations →
      ∃ events, KeyValues.read? d text = some events ∧
        (Descriptor.listedIn events).Nodup ∧
        (∀ f ∈ j.project.localizations, ∃ pattern ∈ Descriptor.listedIn events,
          pattern = "resource/localization/" ++ f.baseName ++ "_%language%.txt" ∧
          Text.replaceLast? "%language%".toList f.language.toList
              (l.modDir ++ "/" ++ pattern).toList =
            some (l.localization ++ "/" ++ f.fileName).toList) ∧
        ∀ e ∈ j.modSettings.localizations, e.enabled = true →
          e.path ∈ Descriptor.listedIn events

/-- **Manifests agree with the files written.**  Whatever the store, the calls of a build that
succeeds write a registration list and a descriptor from which its scripts and token tables are
read, as long as the names in them can be read back. -/
theorem manifests_agree (j : Job) (s : Storage σ) (state : σ)
    (h : (j.run s state).1.success = true) :
    ∃ dir, Manifested j (j.layout dir) (j.run s.traced (state, [])).2.2 := by
  obtain ⟨dir, htrace, hscripts⟩ := run_traced_of_success h
  have hlisting : j.generated.scripts.map (fun b => (b.path, b.context.clause)) = j.listing :=
    map_eq_of_forall₂ hscripts Generates.listed
  refine ⟨dir, ?_⟩
  rw [htrace]
  constructor
  · have hfiles := (Plan.staged (j.layout dir) j.modSettings j.project j.generated.scripts).files
    have hnames : j.generated.scripts.map (fun b => (j.layout dir).vscripts ++ "/" ++ b.path) =
        j.listing.map fun e => (j.layout dir).vscripts ++ "/" ++ e.1 := by
      rw [← hlisting, List.map_map]
      rfl
    rw [hnames] at hfiles
    rw [Trace.files_calls]
    exact hfiles
  · have hmem : ⟨(j.layout dir).vscripts, "scripts.rson", Registration.text
          (j.generated.scripts.map fun b => (b.path, b.context))⟩ ∈
        Plan.artifacts (j.layout dir) j.modSettings j.project j.generated.scripts :=
      List.mem_append_right _ (.head _)
    have hread := Registration.read_listed_iff
      (j.generated.scripts.map fun b => (b.path, b.context))
    rw [List.map_map] at hread
    refine ⟨_, Plan.write_mem hmem, ?_⟩
    rw [← hlisting]
    simp only [List.forall_mem_map] at hread ⊢
    exact hread
  · have hmem : ⟨(j.layout dir).modDir, "mod.vdf", Descriptor.text j.modSettings
          j.project.localizations⟩ ∈
        Plan.artifacts (j.layout dir) j.modSettings j.project j.generated.scripts :=
      List.mem_append_right _ (.tail _ (.head _))
    refine ⟨_, Plan.write_mem hmem, fun d hplain => ?_⟩
    refine ⟨_, (Descriptor.read?_text_iff _ _).mpr hplain, ?_⟩
    rw [Descriptor.listedIn_content]
    refine ⟨Descriptor.nodup_paths .., fun f hf => ?_, fun e he henabled => ?_⟩
    · exact ⟨_, Descriptor.mem_paths.mpr (.inl ⟨f, hf, rfl⟩), rfl, Descriptor.resolve_pattern ..⟩
    · exact Descriptor.mem_paths.mpr (.inr ⟨e, he, henabled, rfl⟩)

/-- A mod with two scripts for different machines, a table named for the variable itself, and a
pattern that is declared by hand as well. -/
def phrasebook : Job where
  catalog := .builtin
  settings := {}
  project :=
    { metadata := ⟨"Phrases", "1.0.0", "", "", "", "", "0.1.0"⟩
      settings :=
        { mod := some
            { name := "Phrases", author := "Ann"
              localizations := [⟨"resource/localization/ui_%language%.txt", true⟩,
                ⟨"extra.txt", true⟩, ⟨"off.txt", false⟩] } }
      scripts :=
        [{ id := "a", name := "start", nodes := [{ id := "go", nodeType := "init-server" }]
           createdAt := "", modifiedAt := "" },
         { id := "b", name := "menu.gnut", nodes := [{ id := "go", nodeType := "init-ui" }]
           createdAt := "", modifiedAt := "" }]
      localizations :=
        [{ id := "e", name := "ui.txt", createdAt := "", modifiedAt := "" },
         { id := "f", name := "ui", language := "french", createdAt := "", modifiedAt := "" },
         { id := "g", name := "%language%", language := "german", createdAt := ""
           modifiedAt := "" }] }
  options := ⟨some "out", false⟩

/-- The names can be read back, and the scripts and the paths are read from the manifests. -/
theorem manifests_agree_phrasebook :
    (phrasebook.run MemoryStore.storage {}).1.success = true ∧
    ∃ dir list descriptor groups, Manifested phrasebook (phrasebook.layout dir)
        (phrasebook.run MemoryStore.storage.traced ({}, [])).2.2 ∧
      (.write ((phrasebook.layout dir).vscripts ++ "/" ++ "scripts.rson") list, true) ∈
        (phrasebook.run MemoryStore.storage.traced ({}, [])).2.2 ∧
      Registration.read? list = some groups ∧
      (Registration.listed groups).Perm [("start.nut", "SERVER"), ("menu.gnut", "UI")] ∧
      (.write ((phrasebook.layout dir).modDir ++ "/" ++ "mod.vdf") descriptor, true) ∈
        (phrasebook.run MemoryStore.storage.traced ({}, [])).2.2 ∧
      ∃ events, KeyValues.read? ⟨.refused, false⟩ descriptor = some events ∧
        (Descriptor.listedIn events).Nodup ∧ "extra.txt" ∈ Descriptor.listedIn events := by
  have hsuccess : (phrasebook.run MemoryStore.storage {}).1.success = true := by decide +kernel
  have hlisting : phrasebook.listing = [("start.nut", "SERVER"), ("menu.gnut", "UI")] := by
    decide +kernel
  have hplain : Descriptor.Plain ⟨.refused, false⟩ phrasebook.modSettings
      phrasebook.project.localizations := by decide +kernel
  obtain ⟨dir, hmanifested⟩ := manifests_agree phrasebook _ _ hsuccess
  obtain ⟨list, hlist, hread⟩ := hmanifested.scripts
  obtain ⟨descriptor, hdescriptor, hevents⟩ := hmanifested.tables
  rw [hlisting] at hread
  obtain ⟨groups, hgroups, hperm⟩ := hread.mpr (by decide)
  obtain ⟨events, hread, hnodup, -, hmanual⟩ := hevents _ hplain
  exact ⟨hsuccess, dir, list, descriptor, groups, hmanifested, hlist, hgroups, hperm, hdescriptor,
    events, hread, hnodup, hmanual ⟨"extra.txt", true⟩ (.tail _ (.head _)) rfl⟩

/-- A script with a line feed in its name, and a path with quotes in it. -/
def torn : Job where
  catalog := .builtin
  settings := {}
  project :=
    { metadata := ⟨"Torn", "1.0.0", "", "", "", "", "0.1.0"⟩
      settings :=
        { mod := some
            { name := "Torn", author := "Ann", localizations := [⟨"p\" \"1\" \"p", true⟩] } }
      scripts :=
        [{ id := "a", name := "a.nut\n\tb", nodes := [{ id := "go", nodeType := "init-server" }]
           createdAt := "", modifiedAt := "" }] }
  options := ⟨some "out", false⟩

/-- The build writes one script, of which the registration list makes two, and the descriptor lists
a path twice. -/
theorem torn_manifests :
    (torn.run MemoryStore.storage {}).1.success = true ∧
    (torn.run MemoryStore.storage.traced ({}, [])).2.2.files =
      [(torn.layout "out").vscripts ++ "/" ++ "a.nut\n\tb.nut",
       (torn.layout "out").vscripts ++ "/" ++ "scripts.rson",
       (torn.layout "out").modDir ++ "/" ++ "mod.vdf"] ∧
    (∃ list, (.write ((torn.layout "out").vscripts ++ "/" ++ "scripts.rson") list, true) ∈
        (torn.run MemoryStore.storage.traced ({}, [])).2.2 ∧
      Registration.read? list = some [("SERVER", ["a.nut", "b.nut"])]) ∧
    ∃ descriptor, (.write ((torn.layout "out").modDir ++ "/" ++ "mod.vdf") descriptor, true) ∈
        (torn.run MemoryStore.storage.traced ({}, [])).2.2 ∧
      (KeyValues.read? ⟨.refused, false⟩ descriptor).map Descriptor.listedIn = some ["p", "p"] := by
  refine ⟨by decide +kernel, by decide +kernel,
    ⟨Registration.text [("a.nut\n\tb.nut", { server := true })], by decide +kernel,
      by decide +kernel⟩,
    Descriptor.text torn.modSettings [], by decide +kernel, ?_⟩
  rw [KeyValues.read?, Descriptor.toList_text]
  decide +kernel

end Job

end VisualScript
