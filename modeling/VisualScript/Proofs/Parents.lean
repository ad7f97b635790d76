import VisualScript.Proofs.Places

/-!
# Proofs — Parents

Every file is written into a directory that the build has made for it.  In the plan, the directory
of a file is among the directories made at the start or is made right before the file, and no folder
is deleted after the first action (`Plan.Staged.parent_created`).  Where a build has come to a call,
all actions before it have succeeded (`Trace.Follows.split`); so the same is true of its calls,
however the store answers (`Job.parents_first`).
-/

namespace VisualScript

namespace Trace

/-- Before a file is written, the folder has been deleted, and since then the directory of the file
has been created with success and nothing has been deleted. -/
def ParentsFirst (root : String) (t : Trace) : Prop :=
  ∀ {before after : Trace} {path content : String} {ok : Bool},
    t = before ++ (.write path content, ok) :: after →
      ∃ (made : Trace) (parent name : String),
        before = (.deleteDirectory root, true) :: made ∧
        (∀ path ok, (.deleteDirectory path, ok) ∉ made) ∧
        path = parent ++ "/" ++ name ∧ '/' ∉ name.toList ∧
        (.createDirectory parent, true) ∈ made

variable {plan : List Action} {t before after : Trace} {failure : Option StepFailure} {c : Call}
  {ok : Bool}

theorem split_calls {as : List Action}
    (h : as.map (fun a => (a.call, true)) = before ++ (c, ok) :: after) :
    ∃ done a rest, as = done ++ a :: rest ∧ a.call = c ∧
      before = done.map fun a => (a.call, true) := by
  obtain ⟨done, tail, rfl, hdone, htail⟩ := List.map_eq_append_iff.mp h
  obtain ⟨a, rest, rfl, ha, -⟩ := List.map_eq_cons_iff.mp htail
  exact ⟨done, a, rest, rfl, (Prod.mk.inj ha).1, hdone.symm⟩

/-- Each call is that of an action of the plan, and all actions before it have succeeded. -/
theorem Follows.split (h : t.Follows plan failure) (ht : t = before ++ (c, ok) :: after) :
    ∃ done a rest, plan = done ++ a :: rest ∧ a.call = c ∧
      before = done.map fun a => (a.call, true) := by
  cases h with
  | whole calls => exact split_calls (calls.symm.trans ht)
  | @stopped done rest a reason split calls =>
    rcases List.eq_nil_or_concat' after with rfl | ⟨after, last, rfl⟩
    · -- the call is the one that failed
      obtain ⟨hdone, hlast⟩ := List.append_inj' (calls.symm.trans ht) rfl
      exact ⟨done, a, rest, split, (Prod.mk.inj (List.cons.inj hlast).1).1, hdone.symm⟩
    · have hcalls : done.map (fun a => (a.call, true)) ++ [(a.call, false)] =
          before ++ (c, ok) :: after ++ [last] := by
        rw [← calls, ht, List.append_assoc, List.cons_append]
      obtain ⟨done', a', rest', rfl, ha', hbefore⟩ :=
        split_calls (List.append_inj_left' hcalls rfl)
      exact ⟨done', a', rest' ++ a :: rest, by rw [split, List.append_assoc, List.cons_append],
        ha', hbefore⟩

/-- The first call is that of the first action. -/
theorem Follows.head {a : Action} (h : t.Follows plan failure) (hplan : plan = a :: plan.tail) :
    ∃ ok rest, t = (a.call, ok) :: rest := by
  rw [hplan] at h
  cases h with
  | whole calls => exact ⟨true, _, calls⟩
  | @stopped done rest b reason split calls =>
    cases done with
    | nil =>
      obtain ⟨hb, -⟩ := List.cons.inj split
      subst hb
      exact ⟨false, [], calls⟩
    | cons c done =>
      obtain ⟨hc, -⟩ := List.cons.inj split
      subst hc
      exact ⟨true, _, calls⟩

end Trace

namespace Plan

variable {l : ModLayout} {p : Project} {scripts : List BuiltScript} {a : Artifact}
  {plan before after : List Action}

/-- Before a file, the plan deletes the folder and then creates the directory of the file. -/
theorem Staged.parent_created (h : Staged l p scripts plan)
    (hplan : plan = before ++ .write a :: after) :
    ∃ made, before = .deleteDirectory l.modDir :: made ∧
      (∀ path, .deleteDirectory path ∉ made) ∧ .createDirectory a.parent ∈ made := by
  have hcreated : .createDirectory a.parent ∈ before := by
    by_cases hdir : a.parent = a.dir
    · rw [hdir]
      exact h.based hplan
    · exact List.mem_of_getLast? (h.nested hplan hdir)
  obtain ⟨rest, hrest, honce⟩ := h.cleared
  rw [hrest] at hplan
  cases before with
  | nil => cases hplan
  | cons b made =>
    obtain ⟨hb, hmade⟩ := List.cons.inj hplan
    subst hb
    refine ⟨made, rfl, fun path hm => honce path ?_, ?_⟩
    · rw [hmade]
      exact List.mem_append_left _ hm
    · exact (List.mem_cons.mp hcreated).resolve_left Action.noConfusion

end Plan

/-- The calls of a staged plan make the directory of a file before they write it. -/
theorem Trace.Follows.parentsFirst {l : ModLayout} {p : Project} {scripts : List BuiltScript}
    {plan : List Action} {t : Trace} {failure : Option StepFailure}
    (hplan : Plan.Staged l p scripts plan) (h : t.Follows plan failure) :
    t.ParentsFirst l.modDir := by
  intro before after path content ok ht
  obtain ⟨done, action, rest, hsplit, hcall, hbefore⟩ := h.split ht
  cases action with
  | write a =>
    obtain ⟨made, rfl, honce, hcreated⟩ := hplan.parent_created hsplit
    rw [List.map_cons] at hbefore
    obtain ⟨name, hname, hpath⟩ := a.exists_path_eq
    refine ⟨_, a.parent, name, hbefore, fun path ok hm => ?_,
      (Call.write.inj hcall).1.symm.trans hpath, hname, List.mem_map.mpr ⟨_, hcreated, rfl⟩⟩
    obtain ⟨b, hb, hb'⟩ := List.mem_map.mp hm
    have hdelete : b.call = .deleteDirectory path := (Prod.mk.inj hb').1
    cases b with
    | deleteDirectory path' => exact honce path' hb
    | createDirectory path' => cases hdelete
    | write a' => cases hdelete
  | deleteDirectory path' => cases hcall
  | createDirectory path' => cases hcall

namespace Job

variable {σ : Type}

/-- **Parents exist before files.**  However the store answers, a build that gets as far as its
output starts with the deletion of the mod folder, and each file it writes is preceded, after the
deletion, by the successful creation of the part of its path before the last slash.  When the build
succeeds, these are all the files of the mod, whatever their kinds and names. -/
theorem parents_first (j : Job) (s : Storage σ) (state : σ) (dir : String)
    (h : j.Ready s state dir) :
    ∃ t : Trace, j.run s.traced (state, []) = ((j.run s state).1, (j.run s state).2, t) ∧
      (∃ ok rest, t = (.deleteDirectory (j.layout dir).modDir, ok) :: rest) ∧
      t.ParentsFirst (j.layout dir).modDir ∧
      ((j.run s state).1.success = true →
        t.files = j.fileNames.map fun name => (j.layout dir).modDir ++ "/" ++ name) := by
  obtain ⟨t, failure, hrun, hfollows, -⟩ := h.follows
  have hstaged := Plan.staged (j.layout dir) j.modSettings j.project j.generated.scripts
  refine ⟨t, hrun, hfollows.head (j.plan_cons dir), hfollows.parentsFirst hstaged,
    fun hs => ?_⟩
  have hcalls : t = (j.plan dir).map fun a => (a.call, true) := by
    rw [← h.calls_of_success hs, hrun]
  rw [hcalls, Trace.files_calls, filterMap_plan, paths_artifacts h.performs.1]

/-- A mod with a weapon in a directory of its own and a menu whose name starts with a slash. -/
def rack : Job where
  catalog := .builtin
  settings := {}
  project :=
    { metadata := ⟨"Rack", "1.0.0", "", "", "", "", "0.1.0"⟩
      settings := { mod := some { name := "x", author := "Ann" } }
      weapons :=
        [{ id := "a", name := "old/axe", content := "sharp", createdAt := "", modifiedAt := "" }]
      interfaces :=
        [{ id := "b", name := "/main", kind := .menu, createdAt := "", modifiedAt := "" }] }
  options := ⟨some "out", false⟩

/-- A store that refuses the second file. -/
def fullStore : MemoryStore := { failOnWrite := some 2 }

/-- The build gets as far as the menu, which is refused; its directory is there, as is that of the
weapon before it. -/
theorem parents_first_rack :
    rack.Ready MemoryStore.storage fullStore "out" ∧
    (.write "out/Ann-x/resource/ui/menus//main.menu" "", false) ∈
      (rack.run MemoryStore.storage.traced (fullStore, [])).2.2 ∧
    Trace.ParentsFirst "out/Ann-x" (rack.run MemoryStore.storage.traced (fullStore, [])).2.2 := by
  have hready : rack.Ready MemoryStore.storage fullStore "out" :=
    ⟨by decide +kernel, rfl, by simp [files, rack, Project.scriptFiles]⟩
  obtain ⟨t, hrun, -, hparents, -⟩ := parents_first rack MemoryStore.storage fullStore "out" hready
  have hfolder : (rack.layout "out").modDir = "out/Ann-x" := by decide +kernel
  refine ⟨hready, by decide +kernel, ?_⟩
  rw [hrun, ← hfolder]
  exact hparents

end Job

end VisualScript
