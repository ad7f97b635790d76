import VisualScript.Catalog.Builtin
import VisualScript.Proofs.Trace

/-!
# Proofs — Rebuilding

What a build leaves in a store.  The files and directories of a store are its `Contents`, and an
action that succeeds changes them in one way (`Action.apply`); one that fails does not change them.
A plan begins by clearing the folder of the mod and works inside that folder from then on
(`Plan.within`), so what it leaves depends on what lies outside the folder and on nothing else.

* `Action.performAll_contents`: a run of actions has carried out a beginning of them.
* `Job.run_outside`: a build, complete or cut short, leaves alone what is outside its folder.
* `Job.output_tree_determined`: a build leaves the files of its plan in the folder and the rest of
  the store as it was, and building again changes nothing.
-/

namespace VisualScript

open MemoryStore

variable {dir path root : String}

/-- The files and directories of a store. -/
structure Contents where
  files       : List (String × String)
  directories : List String

namespace MemoryStore

def contents (m : MemoryStore) : Contents := ⟨m.files, m.directories⟩

/-- No request fails. -/
structure Reliable (m : MemoryStore) : Prop where
  select    : m.selectFailure = none
  directory : m.failDirectory = none
  delete    : m.failDelete = false
  write     : m.failOnWrite = none
  device    : m.breakOnWrite = none

/-- The store has changed in what it holds and what it has recorded only. -/
def Steady (m m' : MemoryStore) : Prop :=
  ∃ files directories requests writes, m' =
    { m with files := files, directories := directories, requests := requests, writes := writes }

theorem Steady.trans {m m' m'' : MemoryStore} (h : Steady m m') (h' : Steady m' m'') :
    Steady m m'' := by
  obtain ⟨_, _, _, _, rfl⟩ := h
  obtain ⟨files, directories, requests, writes, rfl⟩ := h'
  exact ⟨files, directories, requests, writes, rfl⟩

theorem Steady.selected {m m' : MemoryStore} (h : Steady m m') : m'.selected = m.selected := by
  obtain ⟨_, _, _, _, rfl⟩ := h
  rfl

theorem Steady.reliable {m m' : MemoryStore} (h : Steady m m') (hm : m.Reliable) :
    m'.Reliable := by
  obtain ⟨_, _, _, _, rfl⟩ := h
  exact ⟨hm.select, hm.directory, hm.delete, hm.write, hm.device⟩

/-- A file is written, or nothing changes. -/
theorem write_cases (path content : String) (m : MemoryStore) : ∃ m', Steady m m' ∧
    (m.write path content = (.done, m') ∧
        m'.contents = ⟨Assoc.set path content m.files, m.directories⟩ ∨
      (∃ outcome, m.write path content = (outcome, m') ∧ outcome ≠ .done) ∧
        m'.contents = m.contents ∧ ¬ m.Reliable) := by
  rw [MemoryStore.write]
  split
  case isTrue hb =>
    exact ⟨_, ⟨_, _, _, _, rfl⟩,
      .inr ⟨⟨_, rfl, nofun⟩, rfl, fun h => Option.some_ne_none _ (hb.symm.trans h.device)⟩⟩
  case isFalse =>
    split
    case isTrue hf =>
      exact ⟨_, ⟨_, _, _, _, rfl⟩,
        .inr ⟨⟨_, rfl, nofun⟩, rfl, fun h => Option.some_ne_none _ (hf.symm.trans h.write)⟩⟩
    case isFalse => exact ⟨_, ⟨_, _, _, _, rfl⟩, .inl ⟨rfl, rfl⟩⟩

end MemoryStore

/-! ### Paths below a folder -/

/-- The path is that of a folder, or one below it. -/
def atOrBelow (root path : String) : Bool := path = root || isBelow root path

theorem isBelow_iff : isBelow root path = true ↔ ∃ rest, path = root ++ "/" ++ rest := by
  rw [isBelow, List.isPrefixOf_iff_prefix]
  constructor
  · rintro ⟨rest, h⟩
    refine ⟨String.ofList rest, String.toList_inj.mp ?_⟩
    rw [String.toList_append, String.toList_ofList, h]
  · rintro ⟨rest, rfl⟩
    exact ⟨rest.toList, (String.toList_append ..).symm⟩

theorem atOrBelow_iff : atOrBelow root path = true ↔ path = root ∨ isBelow root path = true := by
  simp [atOrBelow]

theorem isBelow_join (h : atOrBelow root dir = true) (name : String) :
    isBelow root (dir ++ "/" ++ name) = true := by
  rw [isBelow_iff]
  rcases atOrBelow_iff.mp h with rfl | h
  · exact ⟨name, rfl⟩
  · obtain ⟨rest, rfl⟩ := isBelow_iff.mp h
    exact ⟨rest ++ "/" ++ name, by simp only [String.append_assoc]⟩

theorem isBelow_trans (h : atOrBelow root dir = true) (hp : isBelow dir path = true) :
    isBelow root path = true := by
  obtain ⟨rest, rfl⟩ := isBelow_iff.mp hp
  exact isBelow_join h rest

theorem atOrBelow_trans (h : atOrBelow root dir = true) (hp : atOrBelow dir path = true) :
    atOrBelow root path = true := by
  rcases atOrBelow_iff.mp hp with rfl | hp
  · exact h
  · exact atOrBelow_iff.mpr (.inr (isBelow_trans h hp))

/-- The directory of a file is its base or lies below it. -/
theorem Artifact.parent_atOrBelow (a : Artifact) : atOrBelow a.dir a.parent = true := by
  have hpath : a.path.toList.reverse = a.name.toList.reverse ++ '/' :: a.dir.toList.reverse := by
    simp [Artifact.path]
  rw [atOrBelow_iff, Artifact.parent, Artifact.parentOf, hpath, List.dropWhile_append]
  split
  · exact .inl (by simp)
  · rename_i hslash
    match hrest : a.name.toList.reverse.dropWhile (· != '/'), hslash with
    | [], hslash => exact absurd rfl hslash
    | c :: rest, _ =>
      refine .inr (isBelow_iff.mpr ⟨String.ofList rest.reverse, String.toList_inj.mp ?_⟩)
      simp

/-! ### What actions do to contents -/

namespace Action

/-- What an action that succeeds does to the contents of a store. -/
def apply (c : Contents) : Action → Contents
  | .deleteDirectory path =>
      { files := c.files.filter fun e => !isBelow path e.1
        directories := c.directories.filter fun d => !atOrBelow path d }
  | .createDirectory path =>
      if path ∈ c.directories then c else { c with directories := c.directories ++ [path] }
  | .write a => { c with files := Assoc.set a.path a.content c.files }

/-- The action touches a folder and what is below it only. -/
def Within (root : String) : Action → Prop
  | .deleteDirectory path => atOrBelow root path = true
  | .createDirectory path => atOrBelow root path = true
  | .write a              => isBelow root a.path = true

/-- A request changes the contents if it succeeds, and only then; none fails in a store that is
reliable. -/
theorem request_cases (a : Action) (m : MemoryStore) : ∃ m', Steady m m' ∧
    (a.request storage m = (.ok (), m') ∧ m'.contents = apply m.contents a ∨
      (∃ e, a.request storage m = (.error e, m')) ∧ m'.contents = m.contents ∧ ¬ m.Reliable) := by
  cases a with
  | deleteDirectory path =>
    simp only [request, storage, MemoryStore.deleteDirectory]
    split
    case isTrue hd =>
      exact ⟨_, ⟨_, _, _, _, rfl⟩,
        .inr ⟨⟨_, rfl⟩, rfl, fun h => Bool.false_ne_true (h.delete.symm.trans hd)⟩⟩
    case isFalse => exact ⟨_, ⟨_, _, _, _, rfl⟩, .inl ⟨rfl, rfl⟩⟩
  | createDirectory path =>
    simp only [request, storage, MemoryStore.createDirectory]
    split
    case isTrue hf =>
      exact ⟨_, ⟨_, _, _, _, rfl⟩,
        .inr ⟨⟨_, rfl⟩, rfl, fun h => Option.some_ne_none _ (hf.symm.trans h.directory)⟩⟩
    case isFalse =>
      split
      case isTrue hd => exact ⟨_, ⟨_, _, _, _, rfl⟩, .inl ⟨rfl, (if_pos hd).symm⟩⟩
      case isFalse hd => exact ⟨_, ⟨_, _, _, _, rfl⟩, .inl ⟨rfl, (if_neg hd).symm⟩⟩
  | write a =>
    obtain ⟨m', hsteady, ⟨hwrite, hcontents⟩ | ⟨⟨outcome, hwrite, hnot⟩, hcontents, hm⟩⟩ :=
      write_cases a.path a.content m
    · refine ⟨m', hsteady, .inl ⟨?_, hcontents⟩⟩
      simp only [request, storage, hwrite]
    · refine ⟨m', hsteady, .inr ⟨?_, hcontents, hm⟩⟩
      simp only [request, storage, hwrite]
      cases outcome with
      | done => exact absurd rfl hnot
      | refused | broken => exact ⟨_, rfl⟩

/-- Actions are carried out up to the first that fails. -/
theorem performAll_contents : ∀ (plan : List Action) (m : MemoryStore),
    ∃ done rest, plan = done ++ rest ∧ Steady m (performAll storage plan m).2 ∧
      (performAll storage plan m).2.contents = done.foldl apply m.contents ∧
      ((performAll storage plan m).1.2 = none → rest = []) ∧
      (m.Reliable → (performAll storage plan m).1 = (plan.filterMap written?, none))
  | [], m => ⟨[], [], rfl, ⟨_, _, _, _, rfl⟩, rfl, fun _ => rfl, fun _ => rfl⟩
  | a :: as, m => by
    obtain ⟨m', hsteady, ⟨hrequest, hcontents⟩ | ⟨⟨e, hrequest⟩, hcontents, hnot⟩⟩ :=
      a.request_cases m
    · have hperform : a.perform storage m = (none, m') := by rw [perform, hrequest]
      obtain ⟨done, rest, rfl, hsteady', hcontents', hnone, hreliable⟩ :=
        performAll_contents as m'
      rw [performAll, hperform]
      refine ⟨a :: done, rest, rfl, hsteady.trans hsteady', ?_, hnone, fun hm => ?_⟩
      · rw [hcontents', hcontents, List.foldl_cons]
      · simp only [hreliable (hsteady.reliable hm)]
        cases a <;> rfl
    · have hperform : a.perform storage m = (some (a.failure e), m') := by
        rw [perform, hrequest]
      rw [performAll, hperform]
      exact ⟨[], a :: as, rfl, hsteady, hcontents, fun h => absurd h (Option.some_ne_none _),
        fun hm => absurd hm hnot⟩

end Action

namespace Contents

/-- What lies outside a folder: what is left when the folder is deleted. -/
def outside (root : String) (c : Contents) : Contents := Action.apply c (.deleteDirectory root)

variable {root : String} {c : Contents}

theorem lookup_outside (path : String) : (c.outside root).files.lookup path =
    if isBelow root path then none else c.files.lookup path := by
  rw [outside, Action.apply, Assoc.lookup_filter (!isBelow root ·)]
  cases isBelow root path <;> rfl

theorem mem_outside {path : String} : path ∈ (c.outside root).directories ↔
    path ∈ c.directories ∧ atOrBelow root path = false := by
  simp [outside, Action.apply]

/-- What is outside a folder is not changed by an action inside it. -/
theorem outside_apply {a : Action} (h : a.Within root) :
    (Action.apply c a).outside root = c.outside root := by
  cases a with
  | deleteDirectory path =>
    have hfile : ∀ p, (!isBelow root p && !isBelow path p) = !isBelow root p := by
      intro p
      cases hp : isBelow path p with
      | false => simp
      | true => simp [isBelow_trans h hp]
    have hdir : ∀ d, (!atOrBelow root d && !atOrBelow path d) = !atOrBelow root d := by
      intro d
      cases hd : atOrBelow path d with
      | false => simp
      | true => simp [atOrBelow_trans h hd]
    simp only [outside, Action.apply, List.filter_filter, hfile, hdir]
  | createDirectory path =>
    simp only [outside, Action.apply]
    split
    · rfl
    · have hnew : [path].filter (!atOrBelow root ·) = [] := by
        simp [show atOrBelow root path = true from h]
      rw [List.filter_append, hnew, List.append_nil]
  | write a =>
    have hpath : isBelow root a.path = true := h
    have hset : (Assoc.set a.path a.content c.files).filter (!isBelow root ·.1) =
        c.files.filter (!isBelow root ·.1) :=
      Assoc.filter_set (p := (!isBelow root ·)) (by rw [hpath]; rfl) _
    simp only [outside, Action.apply, hset]

theorem outside_foldl {as : List Action} (h : ∀ a ∈ as, a.Within root) :
    (as.foldl Action.apply c).outside root = c.outside root := by
  induction as generalizing c with
  | nil => rfl
  | cons a as ih =>
    rw [List.foldl_cons, ih fun b hb => h b (.tail _ hb), outside_apply (h a (.head _))]

/-- The directories there are after actions that delete none. -/
theorem mem_foldl_directories {as : List Action} (h : ∀ path, .deleteDirectory path ∉ as)
    {d : String} : d ∈ (as.foldl Action.apply c).directories ↔
      .createDirectory d ∈ as ∨ d ∈ c.directories := by
  induction as generalizing c with
  | nil => simp
  | cons a as ih =>
    rw [List.foldl_cons, ih fun path hm => h path (.tail _ hm), List.mem_cons, or_assoc,
      or_left_comm]
    refine or_congr_right ?_
    cases a with
    | deleteDirectory path => exact absurd (.head _) (h path)
    | createDirectory path =>
      rw [Action.apply, Action.createDirectory.injEq]
      split
      case isTrue hm => exact ⟨.inr, fun hd => hd.elim (fun he => he ▸ hm) id⟩
      case isFalse => rw [List.mem_append, List.mem_singleton, or_comm]
    | write a => exact ⟨.inr, fun hd => hd.resolve_left nofun⟩

end Contents

/-! ### The plan -/

namespace Plan

/-- What the last of some files at a path holds. -/
def written? (as : List Artifact) (path : String) : Option String :=
  (as.reverse.find? (·.path = path)).map (·.content)

theorem written?_cons (a : Artifact) (as : List Artifact) (path : String) :
    written? (a :: as) path =
      (written? as path).or (if a.path = path then some a.content else none) := by
  rw [written?, written?, List.reverse_cons, List.find?_append, List.find?_singleton]
  cases as.reverse.find? (·.path = path) with
  | some b => rfl
  | none => by_cases h : a.path = path <;> simp [h]

theorem written?_eq_none {as : List Artifact} {path : String} (h : ∀ a ∈ as, a.path ≠ path) :
    written? as path = none := by
  rw [written?, Option.map_eq_none_iff, List.find?_eq_none]
  exact fun a ha => by simpa using h a (List.mem_reverse.mp ha)

variable {c : Contents}

/-- Creating directories writes no file. -/
theorem foldl_createDirectory (dirs : List String) :
    ((dirs.map Action.createDirectory).foldl Action.apply c).files = c.files := by
  induction dirs generalizing c with
  | nil => rfl
  | cons d dirs ih =>
    rw [List.map_cons, List.foldl_cons, ih, Action.apply]
    split <;> rfl

/-- After some files have been written, a path holds what the last of them at that path holds. -/
theorem lookup_foldl_actions (as : List Artifact) (path : String) :
    ((as.flatMap Artifact.actions).foldl Action.apply c).files.lookup path =
      (written? as path).or (c.files.lookup path) := by
  induction as generalizing c with
  | nil => rfl
  | cons a as ih =>
    have hone : (a.actions.foldl Action.apply c).files = Assoc.set a.path a.content c.files := by
      rw [Artifact.actions]
      split
      · rfl
      · have hmade := foldl_createDirectory (c := c) [a.parent]
        exact congrArg (Assoc.set a.path a.content) hmade
    rw [List.flatMap_cons, List.foldl_append, ih, hone, Assoc.lookup_set, written?_cons]
    cases written? as path with
    | some content => rfl
    | none =>
      rcases eq_or_ne path a.path with rfl | h
      · simp
      · simp [h, h.symm]

/-- The directories of a layout. -/
def dirs (l : ModLayout) : List String :=
  [l.modDir, l.scripts, l.vscripts, l.weapons, l.resource, l.ui, l.menus, l.localization]

theorem mem_dirs {l : ModLayout} {p : Project} {d : String} (h : d ∈ directories l p) :
    d ∈ dirs l := by
  simp only [directories, List.mem_append] at h
  rcases h with (((h | h) | h) | h) | h
  · exact (List.IsPrefix.subset ⟨_, rfl⟩ : [l.modDir, l.scripts, l.vscripts] ⊆ dirs l) h
  all_goals grind [dirs]

theorem dirs_make {dir author name d : String} (h : d ∈ dirs (.make dir author name)) :
    atOrBelow (ModLayout.make dir author name).modDir d = true := by
  have hbelow : ∀ root rest : String, atOrBelow root (root ++ ("/" ++ rest)) = true := by
    intro root rest
    rw [← String.append_assoc]
    exact atOrBelow_iff.mpr (.inr (isBelow_join (atOrBelow_iff.mpr (.inl rfl)) rest))
  simp only [dirs, List.mem_cons, List.not_mem_nil, or_false] at h
  rcases h with rfl | rfl | rfl | rfl | rfl | rfl | rfl | rfl
  · exact atOrBelow_iff.mpr (.inl rfl)
  · exact hbelow _ "scripts"
  · exact hbelow _ "scripts/vscripts"
  · exact hbelow _ "scripts/weapons"
  · exact hbelow _ "resource"
  · exact hbelow _ "resource/ui"
  · exact hbelow _ "resource/ui/menus"
  · exact hbelow _ "resource/localization"

/-- **A plan works inside the folder of the mod.** -/
theorem within {dir author name : String} {m : ModSettings} {p : Project}
    {scripts : List BuiltScript} {a : Action}
    (h : a ∈ actions (.make dir author name) m p scripts) :
    a.Within (ModLayout.make dir author name).modDir := by
  rcases List.mem_cons.mp h with rfl | h
  · exact atOrBelow_iff.mpr (.inl rfl)
  rcases List.mem_append.mp h with h | h
  · obtain ⟨d, hd, rfl⟩ := List.mem_map.mp h
    exact dirs_make (mem_dirs hd)
  · obtain ⟨b, hb, ha⟩ := List.mem_flatMap.mp h
    have hdir := dirs_make (mem_dirs (dir_mem_directories hb))
    have hwrite : (Action.write b).Within (ModLayout.make dir author name).modDir :=
      isBelow_join hdir b.name
    rw [Artifact.actions] at ha
    split at ha
    · rw [List.mem_singleton.mp ha]
      exact hwrite
    · rcases List.mem_pair.mp ha with rfl | rfl
      · exact atOrBelow_trans hdir b.parent_atOrBelow
      · exact hwrite

end Plan

/-! ### The build -/

namespace Job

variable {j : Job} {m : MemoryStore}

/-- The files a build writes. -/
def artifacts (j : Job) (dir : String) : List Artifact :=
  Plan.artifacts (j.layout dir) j.modSettings j.project j.generated.scripts

theorem plan_cons (j : Job) (dir : String) :
    j.plan dir = .deleteDirectory (j.layout dir).modDir :: (j.plan dir).tail := rfl

theorem not_delete_mem_tail (j : Job) (dir path : String) :
    .deleteDirectory path ∉ (j.plan dir).tail := by
  obtain ⟨rest, hplan, hnot⟩ := (Plan.staged (j.layout dir) j.modSettings j.project
    j.generated.scripts).cleared
  rw [show j.plan dir = _ from hplan]
  exact hnot path

theorem isBelow_of_mem_artifacts {dir : String} {a : Artifact} (h : a ∈ j.artifacts dir) :
    isBelow (j.layout dir).modDir a.path = true :=
  isBelow_join (Plan.dirs_make (Plan.mem_dirs (Plan.dir_mem_directories h))) a.name

/-- The file at a path after the plan, whose beginning has cleared the folder. -/
theorem lookup_plan (c : Contents) (dir path : String) :
    ((j.plan dir).tail.foldl Action.apply (c.outside (j.layout dir).modDir)).files.lookup path =
      if isBelow (j.layout dir).modDir path then Plan.written? (j.artifacts dir) path
      else c.files.lookup path := by
  rw [plan, Plan.actions, List.tail_cons, List.foldl_append, Plan.lookup_foldl_actions,
    Plan.foldl_createDirectory, Contents.lookup_outside]
  split
  case isTrue => exact Option.or_none
  case isFalse hp =>
    rw [Plan.written?_eq_none fun a ha he => ?_, Option.none_or]
    exact hp (he ▸ isBelow_of_mem_artifacts ha)

theorem mem_directories_plan (c : Contents) (dir d : String) :
    d ∈ ((j.plan dir).tail.foldl Action.apply (c.outside (j.layout dir).modDir)).directories ↔
      .createDirectory d ∈ j.plan dir ∨
        d ∈ c.directories ∧ atOrBelow (j.layout dir).modDir d = false := by
  rw [Contents.mem_foldl_directories (j.not_delete_mem_tail dir), Contents.mem_outside]
  refine or_congr_left ⟨List.mem_of_mem_tail, fun h => ?_⟩
  exact (List.mem_cons.mp h).resolve_left nofun

theorem outputDir_steady (j : Job) (m : MemoryStore) :
    Steady m (j.outputDir storage m).2 ∧ (j.outputDir storage m).2.contents = m.contents := by
  rw [outputDir]
  cases nonempty? j.options.outputDir with
  | some dir => exact ⟨⟨_, _, _, _, rfl⟩, rfl⟩
  | none =>
    have hselect : (storage.select m).2 = m.record .select := by
      simp only [storage, select, record]
      cases m.selectFailure <;> rfl
    rcases hs : storage.select m with ⟨answer, m'⟩
    rw [hs] at hselect
    obtain rfl : m' = m.record .select := hselect
    cases answer <;> exact ⟨⟨_, _, _, _, rfl⟩, rfl⟩

theorem outputDir_reliable (hm : m.Reliable) : (j.outputDir storage m).1 =
    .ok ((nonempty? j.options.outputDir).or (nonempty? m.selected)) := by
  rw [outputDir]
  cases nonempty? j.options.outputDir with
  | some dir => rfl
  | none => simp only [storage, select, record, hm.select, Option.none_or]

/-- **A build carries out a beginning of its plan**, all of it if it succeeds; or it does not come
to that and leaves the store as it is. -/
theorem run_contents (j : Job) (m : MemoryStore) : ∃ done, Steady m (j.run storage m).2 ∧
    (j.run storage m).2.contents = done.foldl Action.apply m.contents ∧
    ((done = [] ∧ (j.run storage m).1.success = false) ∨
      ∃ dir rest, (j.outputDir storage m).1 = .ok (some dir) ∧ j.plan dir = done ++ rest ∧
        (j.run storage m).1.outputPath = some (j.layout dir).modDir ∧
        ((j.run storage m).1.success = true → rest = [])) := by
  obtain ⟨hsteady, hcontents⟩ := j.outputDir_steady m
  rw [run]
  cases j.obstacle? with
  | some f => exact ⟨[], ⟨_, _, _, _, rfl⟩, rfl, .inl ⟨rfl, rfl⟩⟩
  | none =>
    rcases hdir : j.outputDir storage m with ⟨answer, m'⟩
    rw [hdir] at hsteady hcontents
    cases answer with
    | error e => exact ⟨[], hsteady, hcontents, .inl ⟨rfl, rfl⟩⟩
    | ok chosen =>
      cases chosen with
      | none => exact ⟨[], hsteady, hcontents, .inl ⟨rfl, rfl⟩⟩
      | some dir =>
        dsimp only
        rw [runIn]
        cases j.generated.broken with
        | some e => exact ⟨[], hsteady, hcontents, .inl ⟨rfl, rfl⟩⟩
        | none =>
          cases j.generated.errors with
          | cons e es => exact ⟨[], hsteady, hcontents, .inl ⟨rfl, rfl⟩⟩
          | nil =>
            obtain ⟨done, rest, hplan, hsteady', hdone, hnone, -⟩ :=
              Action.performAll_contents (j.plan dir) m'
            refine ⟨done, hsteady.trans hsteady', ?_,
              .inr ⟨dir, rest, rfl, hplan, rfl, fun h => hnone ?_⟩⟩
            · rw [← hcontents]
              exact hdone
            · simpa using h

/-- What a build says depends on the directory it is given, not on what the store holds. -/
theorem run_reliable {m' : MemoryStore} (hm : m.Reliable) (hm' : m'.Reliable)
    (h : m'.selected = m.selected) : (j.run storage m').1 = (j.run storage m).1 := by
  have hdir : (j.outputDir storage m').1 = (j.outputDir storage m).1 := by
    rw [outputDir_reliable hm, outputDir_reliable hm', h]
  have hkept := (j.outputDir_steady m).1.reliable hm
  have hkept' := (j.outputDir_steady m').1.reliable hm'
  rw [run, run]
  cases j.obstacle? with
  | some f => rfl
  | none =>
    rcases h₁ : j.outputDir storage m with ⟨answer, m₁⟩
    rcases h₂ : j.outputDir storage m' with ⟨answer', m₂⟩
    rw [h₁] at hkept
    rw [h₁, h₂] at hdir
    rw [h₂] at hkept'
    obtain rfl : answer' = answer := hdir
    cases answer' with
    | error e => rfl
    | ok chosen =>
      cases chosen with
      | none => rfl
      | some dir =>
        obtain ⟨-, -, -, -, -, -, hrun⟩ := Action.performAll_contents (j.plan dir) m₁
        obtain ⟨-, -, -, -, -, -, hrun'⟩ := Action.performAll_contents (j.plan dir) m₂
        dsimp only
        rw [runIn, runIn]
        cases j.generated.broken with
        | some e => rfl
        | none =>
          cases j.generated.errors with
          | cons e es => rfl
          | nil => simp only [hrun hkept, hrun' hkept']

/-- **A build leaves alone what is outside its folder**, however the store answers. -/
theorem run_outside {root : String}
    (h : ∀ path ∈ (j.run storage m).1.outputPath, path = root) :
    (j.run storage m).2.contents.outside root = m.contents.outside root := by
  obtain ⟨done, -, hcontents, ⟨rfl, -⟩ | ⟨dir, rest, -, hplan, hpath, -⟩⟩ := j.run_contents m
  · rw [hcontents, List.foldl_nil]
  · obtain rfl := h _ (by rw [hpath]; rfl)
    rw [hcontents]
    exact Contents.outside_foldl fun a ha => Plan.within (hplan ▸ List.mem_append_left rest ha)

/-- A build that succeeds has carried out its plan on what was outside its folder. -/
theorem run_success (h : (j.run storage m).1.success = true) :
    ∃ dir, (j.outputDir storage m).1 = .ok (some dir) ∧
      (j.run storage m).1.outputPath = some (j.layout dir).modDir ∧
      (j.run storage m).2.contents = (j.plan dir).tail.foldl Action.apply
        (m.contents.outside (j.layout dir).modDir) := by
  obtain ⟨done, -, hcontents, ⟨-, hfail⟩ | ⟨dir, rest, hdir, hplan, hpath, hall⟩⟩ :=
    j.run_contents m
  · rw [hfail] at h
    cases h
  · obtain rfl := hall h
    rw [List.append_nil] at hplan
    refine ⟨dir, hdir, hpath, ?_⟩
    rw [hcontents, ← hplan, j.plan_cons dir, List.foldl_cons, List.tail_cons]
    rfl

/-- Where no request fails, a build that succeeds on one store does so on every other that offers
the same directory, and carries out the same plan there. -/
theorem run_elsewhere {m₀ : MemoryStore} {dir : String} (hm₀ : m₀.Reliable)
    (h₀ : (j.run storage m₀).1.success = true) (hdir : (j.outputDir storage m₀).1 = .ok (some dir))
    (hm : m.Reliable) (hselected : m.selected = m₀.selected) :
    (j.run storage m).2.contents = (j.plan dir).tail.foldl Action.apply
      (m.contents.outside (j.layout dir).modDir) := by
  obtain ⟨dir', hdir', -, hcontents⟩ := run_success (by rw [run_reliable hm₀ hm hselected, h₀])
  rw [outputDir_reliable hm, hselected, ← outputDir_reliable hm₀, hdir] at hdir'
  cases hdir'
  exact hcontents

/-- **The output tree is a function of the project.**  Where no request fails, a build that succeeds
on one store succeeds on every other that offers the same directory, with the same report.  It
leaves the files of its plan below the folder of the mod, where the last one written to a path
counts, and every other file as it was.  Building again changes nothing, and a build after any
other one into that folder, complete or cut short, leaves what it would have left without it. -/
theorem output_tree_determined (j : Job) {m₀ : MemoryStore} (hm₀ : m₀.Reliable)
    (h₀ : (j.run storage m₀).1.success = true) :
    ∃ dir, (j.outputDir storage m₀).1 = .ok (some dir) ∧
      ∀ m : MemoryStore, m.Reliable → m.selected = m₀.selected →
        let root := (j.layout dir).modDir
        let after := (j.run storage m).2
        (j.run storage m).1 = (j.run storage m₀).1 ∧
        (∀ a ∈ j.artifacts dir, isBelow root a.path = true) ∧
        (∀ path, after.files.lookup path =
          if isBelow root path then Plan.written? (j.artifacts dir) path
          else m.files.lookup path) ∧
        (∀ d, d ∈ after.directories ↔ .createDirectory d ∈ j.plan dir ∨
          d ∈ m.directories ∧ atOrBelow root d = false) ∧
        (j.run storage after).2.contents = after.contents ∧
        ∀ (earlier : Job) (m' m'' : MemoryStore), m'.contents = m.contents →
          (∀ path ∈ (earlier.run storage m').1.outputPath, path = root) →
          m''.Reliable → m''.selected = m₀.selected →
          m''.contents = (earlier.run storage m').2.contents →
          (j.run storage m'').2.contents = after.contents := by
  obtain ⟨dir, hdir, hpath, -⟩ := run_success h₀
  refine ⟨dir, hdir, fun m hm hselected => ?_⟩
  have hreport := run_reliable (j := j) hm₀ hm hselected
  have hcontents := run_elsewhere hm₀ h₀ hdir hm hselected
  -- only what is outside the folder counts
  have hagain : ∀ m' : MemoryStore, m'.Reliable → m'.selected = m₀.selected →
      m'.contents.outside (j.layout dir).modDir = m.contents.outside (j.layout dir).modDir →
      (j.run storage m').2.contents = (j.run storage m).2.contents := by
    intro m' hm' hselected' hout
    rw [hcontents, run_elsewhere hm₀ h₀ hdir hm' hselected', hout]
  refine ⟨hreport, fun a => isBelow_of_mem_artifacts, fun path => ?_, fun d => ?_, ?_, ?_⟩
  · exact (congrArg (fun c => c.files.lookup path) hcontents).trans (lookup_plan ..)
  · exact Iff.trans (by rw [← hcontents]; rfl) (mem_directories_plan m.contents dir d)
  · obtain ⟨-, hsteady, -⟩ := j.run_contents m
    refine hagain _ (hsteady.reliable hm) (hsteady.selected.trans hselected) (run_outside ?_)
    intro path hp
    rw [hreport, hpath] at hp
    exact (Option.some.inj hp).symm
  · intro earlier m' m'' hm' hroot hm'' hselected'' hcontents''
    refine hagain m'' hm'' hselected'' ?_
    rw [hcontents'', run_outside hroot, hm']

/-- A mod with two weapon files of one name and a script without nodes. -/
def armory : Job where
  catalog := .builtin
  settings := {}
  project :=
    { metadata := ⟨"Armory", "1.0.0", "", "", "", "", "0.1.0"⟩
      settings := { mod := some { name := "Old Axes", author := "Smith" } }
      scripts := [{ id := "s", name := "lib/main", createdAt := "", modifiedAt := "" }]
      weapons :=
        [{ id := "a", name := "axe", content := "blunt", createdAt := "", modifiedAt := "" },
         { id := "b", name := "axe.txt", content := "sharp", createdAt := "", modifiedAt := "" }] }
  options := ⟨some "out//", false⟩

/-- A store with a file of an earlier build. -/
def cellar : MemoryStore where
  files := [("out/Smith-OldAxes/scripts/weapons/bow.txt", "long"), ("out/notes.txt", "keep")]
  directories := ["out", "out/Smith-OldAxes"]

/-- The later axe is kept, the bow goes, and the notes stay. -/
theorem output_tree_determined_armory :
    cellar.Reliable ∧ (armory.run storage cellar).1.success = true ∧
    (armory.run storage cellar).2.files.lookup "out/Smith-OldAxes/scripts/weapons/axe.txt" =
      some "sharp" ∧
    (armory.run storage cellar).2.files.lookup "out/Smith-OldAxes/scripts/weapons/bow.txt" = none ∧
    (armory.run storage cellar).2.files.lookup "out/notes.txt" = some "keep" ∧
    (armory.run storage (armory.run storage cellar).2).2.contents =
      (armory.run storage cellar).2.contents := by
  have hm : cellar.Reliable := ⟨rfl, rfl, rfl, rfl, rfl⟩
  have hsuccess : (armory.run storage cellar).1.success = true := by decide +kernel
  obtain ⟨dir, hdir, hall⟩ := output_tree_determined armory hm hsuccess
  cases hdir
  obtain ⟨-, -, hfiles, -, hagain, -⟩ := hall cellar hm rfl
  refine ⟨hm, hsuccess, ?_, ?_, ?_, hagain⟩
  · rw [hfiles]
    decide +kernel
  · rw [hfiles]
    decide +kernel
  · rw [hfiles]
    decide +kernel

end Job

end VisualScript
