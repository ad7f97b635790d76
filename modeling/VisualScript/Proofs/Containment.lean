import VisualScript.Proofs.Entries
import VisualScript.Proofs.Manifests

/-!
# Proofs — Containment

Whether a build stays inside its output directory.  The folder of a mod is named for its author and
name and the files for what the project calls them, and all of these may hold slashes and `..`.
`Job.Contained` says what the names have to be like: read from the output directory they do not
climb above it, the folder lies below it and every file below the folder.

* `RootedAt.inside`: then every action of a plan stays inside.
* `contained_of_inside`: names that are not like that lead out of some output directory.
* `Job.stays_inside_iff`: so the calls of a build stay inside every output directory exactly if the
  names of its project do, and then it deletes and overwrites nothing else on a disk.
-/

namespace VisualScript

/-- The path of a call. -/
def Call.path : Call → String
  | .deleteDirectory path => path
  | .createDirectory path => path
  | .write path _         => path

/-- The call is about something below the output directory, and below the folder of the mod if it
writes. -/
structure Call.Inside (here : Place) (dir modDir : String) (c : Call) : Prop where
  below : Place.Below (.ofPath here dir) (.ofPath here c.path)
  file  : ∀ path, c.file? = some path → Place.Below (.ofPath here modDir) (.ofPath here path)

theorem Action.path_call (a : Action) : a.call.path = a.path := by
  cases a <;> rfl

namespace Place

theorem below_append_iff {front dir place : Place} :
    Below (front ++ dir) (front ++ place) ↔ Below dir place := by
  simp [Below, List.prefix_append_right_inj]

theorem Below.length_lt {dir place : Place} (h : Below dir place) : dir.length < place.length := by
  exact Nat.lt_of_le_of_ne h.1.length_le fun he => h.2 (h.1.eq_of_length he)

theorem Below.of_prefix {dir place place' : Place} (h : Below dir place) (hp : place <+: place') :
    Below dir place' := by
  refine ⟨h.1.trans hp, ?_⟩
  rintro rfl
  exact h.2 (h.1.eq_of_length (Nat.le_antisymm h.1.length_le hp.length_le))

/-- Plain names lead down. -/
theorem walk_plain : ∀ {pieces : List String} (place : Place),
    (∀ piece ∈ pieces, piece ≠ "" ∧ piece ≠ "." ∧ piece ≠ "..") →
      walk place pieces = place ++ pieces
  | [], place, _ => (List.append_nil place).symm
  | piece :: pieces, place, h => by
    obtain ⟨hempty, hdot, hup⟩ := h piece (.head _)
    have hstep : step place piece = place ++ [piece] := by simp [step, hempty, hdot, hup]
    rw [walk, List.foldl_cons, hstep]
    exact (walk_plain _ fun p hp => h p (.tail _ hp)).trans (List.append_cons ..).symm

theorem exists_fresh (names : List String) : ∃ name : String, '/' ∉ name.toList ∧ name ∉ names := by
  have hbound : ∃ k, ∀ s ∈ names, s.length < k := by
    induction names with
    | nil => exact ⟨0, by simp⟩
    | cons s names ih =>
      obtain ⟨k, hk⟩ := ih
      refine ⟨max k (s.length + 1), fun t ht => ?_⟩
      rcases List.mem_cons.mp ht with rfl | ht
      · omega
      · have := hk t ht
        omega
  obtain ⟨k, hk⟩ := hbound
  refine ⟨String.ofList (List.replicate k 'a'), by simp, fun hm => ?_⟩
  have := hk _ hm
  simp at this

end Place

namespace Job

variable {j : Job} {dir : String} {here root : Place}

/-- The folder of the mod, as it is named. -/
def folder (j : Job) : String := ModLayout.folderName j.modSettings.author j.modSettings.name

/-- Where the names of a project lead, read from the output directory: none of them climbs above it,
the folder is at `root` below it, and the files are below the folder. -/
structure RootedAt (j : Job) (root : Place) : Prop where
  folder : Place.descend [] (Disk.pieces j.folder) = some root
  below  : root ≠ []
  files  : ∀ name ∈ j.fileNames, ∃ place,
    Place.descend root (Disk.pieces name) = some place ∧ Place.Below root place

/-- The names of a project keep to the output directory. -/
def Contained (j : Job) : Prop := ∃ root, j.RootedAt root

theorem modDir_ne (j : Job) (dir : String) : (j.layout dir).modDir ≠ "" := by
  intro h
  have hslash : '/' ∈ (j.layout dir).modDir.toList := by simp [layout, ModLayout.make]
  rw [h] at hslash
  cases hslash

theorem ofPath_modDir (hne : dir ≠ "") : Place.ofPath here (j.layout dir).modDir =
    Place.walk (.ofPath here dir) (Disk.pieces j.folder) :=
  Place.ofPath_withoutSlashes hne _

theorem ofPath_file (name : String) : Place.ofPath here ((j.layout dir).modDir ++ "/" ++ name) =
    Place.walk (.ofPath here (j.layout dir).modDir) (Disk.pieces name) :=
  Place.ofPath_join (j.modDir_ne dir) name

/-- The directories of a layout are in the folder, under plain names. -/
theorem ofPath_dirs {d : String} (h : d ∈ Plan.dirs (j.layout dir)) :
    ∃ rest, Place.ofPath here d = Place.ofPath here (j.layout dir).modDir ++ rest := by
  have hplain : ∀ sub : String, (∀ p ∈ Disk.pieces sub, p ≠ "" ∧ p ≠ "." ∧ p ≠ "..") →
      ∃ rest, Place.ofPath here ((j.layout dir).modDir ++ ("/" ++ sub)) =
        Place.ofPath here (j.layout dir).modDir ++ rest := by
    intro sub hsub
    refine ⟨Disk.pieces sub, ?_⟩
    rw [← String.append_assoc, ofPath_file, Place.walk_plain _ hsub]
  simp only [Plan.dirs, List.mem_cons, List.not_mem_nil, or_false] at h
  rcases h with rfl | rfl | rfl | rfl | rfl | rfl | rfl | rfl
  · exact ⟨[], (List.append_nil _).symm⟩
  · exact hplain "scripts" (by decide)
  · exact hplain "scripts/vscripts" (by decide)
  · exact hplain "scripts/weapons" (by decide)
  · exact hplain "resource" (by decide)
  · exact hplain "resource/ui" (by decide)
  · exact hplain "resource/ui/menus" (by decide)
  · exact hplain "resource/localization" (by decide)

/-- A file of the plan is one of the mod. -/
theorem exists_fileName (hscripts : List.Forall₂ j.Generates j.files j.generated.scripts)
    {a : Artifact} (ha : a ∈ j.artifacts dir) :
    ∃ name ∈ j.fileNames, a.path = (j.layout dir).modDir ++ "/" ++ name := by
  have hmem : a.path ∈ (j.artifacts dir).map (·.path) := List.mem_map_of_mem ha
  rw [paths_artifacts hscripts] at hmem
  obtain ⟨name, hname, he⟩ := List.mem_map.mp hmem
  exact ⟨name, hname, he.symm⟩

namespace RootedAt

theorem ofPath_modDir (h : j.RootedAt root) (hne : dir ≠ "") :
    Place.ofPath here (j.layout dir).modDir = Place.ofPath here dir ++ root := by
  have hwalk := @Place.walk_descend (Place.ofPath here dir) _ _ _ h.folder
  rw [List.append_nil] at hwalk
  rw [Job.ofPath_modDir hne, hwalk]

theorem below_modDir (h : j.RootedAt root) (hne : dir ≠ "") (here rest : Place) :
    Place.Below (.ofPath here dir) (Place.ofPath here (j.layout dir).modDir ++ rest) := by
  rw [h.ofPath_modDir hne, List.append_assoc]
  exact Place.below_append.mpr fun hnil => h.below (List.append_eq_nil_iff.mp hnil).1

variable (h : j.RootedAt root) (hscripts : List.Forall₂ j.Generates j.files j.generated.scripts)
  (hne : dir ≠ "")

include h hscripts hne

/-- A file of the plan is below the folder, two names below the output directory or more. -/
theorem ofPath_artifact {a : Artifact} (ha : a ∈ j.artifacts dir) (here : Place) : ∃ place,
      Place.ofPath here a.path = Place.ofPath here dir ++ place ∧ Place.Below root place ∧
        2 ≤ place.length := by
  obtain ⟨name, hname, hpath⟩ := exists_fileName hscripts ha
  obtain ⟨place, hplace, hbelow⟩ := h.files name hname
  refine ⟨place, ?_, hbelow, ?_⟩
  · rw [hpath, ofPath_file, h.ofPath_modDir hne, Place.walk_descend hplace]
  · have hroot := List.length_pos_iff.mpr h.below
    have hlength := hbelow.length_lt
    omega

/-- The directory of a file is one step before it. -/
theorem below_parent {a : Artifact} (ha : a ∈ j.artifacts dir) :
    Place.Below (.ofPath here dir) (.ofPath here a.parent) := by
  obtain ⟨last, hlast, hpath⟩ := a.exists_path_eq
  obtain ⟨place, hplace, -, hlength⟩ := h.ofPath_artifact hscripts hne ha here
  have hbelow := Plan.dirs_make (Plan.mem_dirs (Plan.dir_mem_directories ha))
  have hparent : a.parent ≠ "" := by
    intro hempty
    have hat := atOrBelow_trans hbelow a.parent_atOrBelow
    rw [hempty, atOrBelow_iff] at hat
    rcases hat with hat | hat
    · exact j.modDir_ne dir hat.symm
    · obtain ⟨rest, hrest⟩ := isBelow_iff.mp hat
      simpa using congrArg String.toList hrest
  rw [hpath, Place.ofPath_join hparent, Disk.pieces_of_no_slash hlast] at hplace
  exact Place.below_of_step hplace hlength

theorem inside_write {a : Artifact} (ha : a ∈ j.artifacts dir) :
    (Action.write a).call.Inside here dir (j.layout dir).modDir := by
  obtain ⟨place, hplace, hbelow, hlength⟩ := h.ofPath_artifact hscripts hne ha here
  refine ⟨?_, fun path hp => ?_⟩
  · rw [Action.path_call, Action.path, hplace]
    exact Place.below_append.mpr (List.ne_nil_of_length_pos (by omega))
  · cases hp
    rw [h.ofPath_modDir hne, hplace]
    exact Place.below_append_iff.mpr hbelow

/-- **Contained names keep a plan inside.** -/
theorem inside {a : Action} (ha : a ∈ j.plan dir) :
    a.call.Inside here dir (j.layout dir).modDir := by
  rcases List.mem_cons.mp ha with rfl | ha
  · have hmod := h.below_modDir hne here []
    rw [List.append_nil] at hmod
    exact ⟨hmod, fun path hp => by cases hp⟩
  rcases List.mem_append.mp ha with ha | ha
  · obtain ⟨d, hd, rfl⟩ := List.mem_map.mp ha
    obtain ⟨rest, hrest⟩ := @ofPath_dirs j dir here d (Plan.mem_dirs hd)
    exact ⟨hrest ▸ h.below_modDir hne here rest, fun path hp => by cases hp⟩
  · obtain ⟨b, hb, ha⟩ := List.mem_flatMap.mp ha
    rw [Artifact.actions] at ha
    split at ha
    · rw [List.mem_singleton.mp ha]
      exact h.inside_write hscripts hne hb
    · rcases List.mem_pair.mp ha with rfl | rfl
      · exact ⟨h.below_parent hscripts hne hb, fun path hp => by cases hp⟩
      · exact h.inside_write hscripts hne hb

end RootedAt

/-! ### Names that lead out -/

/-- A directory at the root under a name that the project does not use. -/
theorem ofPath_fresh {name : String} (hslash : '/' ∉ name.toList) (hname : name ∉ ["", ".", ".."]) :
    Place.ofPath [] ("/" ++ name) = [name] := by
  have hjoin := Disk.pieces_join "" name
  rw [Disk.pieces_of_no_slash hslash] at hjoin
  simp only [List.mem_cons, List.not_mem_nil, or_false, not_or] at hname
  rw [← Disk.walk_pieces, show "/" ++ name = "" ++ "/" ++ name by simp, hjoin]
  simp [Disk.pieces, Place.walk, Place.step, hname]

/-- Every file of the plan is written after the folder has been cleared. -/
theorem write_mem_tail {a : Artifact} (h : a ∈ j.artifacts dir) : .write a ∈ (j.plan dir).tail := by
  refine List.mem_append_right _ (List.mem_flatMap.mpr ⟨a, h, ?_⟩)
  rw [Artifact.actions]
  split <;> simp

/-- Every file of a mod is written by the plan. -/
theorem write_mem_plan (hscripts : List.Forall₂ j.Generates j.files j.generated.scripts)
    {name : String} (h : name ∈ j.fileNames) (dir : String) : ∃ a : Artifact,
      .write a ∈ j.plan dir ∧ a.path = (j.layout dir).modDir ++ "/" ++ name := by
  have hmem : (j.layout dir).modDir ++ "/" ++ name ∈ (j.artifacts dir).map (·.path) := by
    rw [paths_artifacts hscripts]
    exact List.mem_map_of_mem h
  obtain ⟨a, ha, hpath⟩ := List.mem_map.mp hmem
  exact ⟨a, List.mem_of_mem_tail (write_mem_tail ha), hpath⟩

/-- **Names that are not contained lead out of some output directory.** -/
theorem contained_of_inside (hscripts : List.Forall₂ j.Generates j.files j.generated.scripts)
    (h : ∀ dir ≠ "", ∀ a ∈ j.plan dir, a.call.Inside [] dir (j.layout dir).modDir) :
    j.Contained := by
  -- the names do not know the directory, so they cannot lead back to it
  obtain ⟨name, hslash, hfresh⟩ := Place.exists_fresh
    (["", ".", ".."] ++ Disk.pieces j.folder ++ j.fileNames.flatMap Disk.pieces)
  simp only [List.mem_append, List.mem_flatMap, not_or, not_exists, not_and] at hfresh
  obtain ⟨⟨hplain, hfolder⟩, hfiles⟩ := hfresh
  have hne : "/" ++ name ≠ "" := fun he => by simpa using congrArg String.toList he
  have hdir : Place.ofPath [] ("/" ++ name) = [name] := ofPath_fresh hslash hplain
  have hmod : Place.ofPath [] (j.layout ("/" ++ name)).modDir =
      Place.walk [name] (Disk.pieces j.folder) := by rw [ofPath_modDir hne, hdir]
  have hdelete : Place.Below [name] (Place.walk [name] (Disk.pieces j.folder)) := by
    rw [← hmod, ← hdir]
    exact (h ("/" ++ name) hne _ (.head _)).below
  cases hroot : Place.descend [] (Disk.pieces j.folder) with
  | none => exact absurd hdelete.1 (Place.not_prefix_of_climb hroot hfolder)
  | some root =>
    have hwalk : Place.walk [name] (Disk.pieces j.folder) = [name] ++ root :=
      @Place.walk_descend [name] _ _ _ hroot
    rw [hwalk] at hdelete hmod
    refine ⟨root, hroot, Place.below_append.mp hdelete, fun file hfile => ?_⟩
    obtain ⟨a, ha, hpath⟩ := write_mem_plan hscripts hfile ("/" ++ name)
    have hinside := h ("/" ++ name) hne _ ha
    have hplace : Place.ofPath [] a.path = Place.walk ([name] ++ root) (Disk.pieces file) := by
      rw [hpath, ofPath_file, hmod]
    cases hdown : Place.descend root (Disk.pieces file) with
    | none =>
      have hbelow := hinside.below
      rw [Action.path_call, Action.path, hdir, hplace] at hbelow
      exact absurd hbelow.1 (Place.not_prefix_of_climb hdown fun hm => hfiles file hfile hm)
    | some place =>
      have hbelow := hinside.file a.path rfl
      rw [hmod, hplace, Place.walk_descend hdown] at hbelow
      exact ⟨place, rfl, Place.below_append_iff.mp hbelow⟩

/-! ### The build -/

/-- The job with another output directory. -/
def into (j : Job) (dir : String) : Job :=
  { j with options := { j.options with outputDir := some dir } }

theorem nonempty_of_outputDir {σ : Type} {s : Storage σ} {state : σ}
    (h : (j.outputDir s state).1 = .ok (some dir)) : dir ≠ "" := by
  have hfilter : ∀ {chosen : Option String}, nonempty? chosen = some dir → dir ≠ "" := by
    intro chosen hc
    have hkeep := (Option.filter_eq_some_iff.mp hc).2
    simpa using hkeep
  rw [outputDir] at h
  cases hoption : nonempty? j.options.outputDir with
  | some dir' =>
    rw [hoption] at h
    cases h
    exact hfilter hoption
  | none =>
    simp only [hoption] at h
    rcases hselect : s.select state with ⟨answer, state'⟩
    rw [hselect] at h
    cases answer with
    | error e => cases h
    | ok chosen => exact hfilter (Except.ok.inj h)

/-- Where no request fails, a build that is ready makes all the calls of its plan. -/
theorem Ready.calls {m : MemoryStore} (hm : m.Reliable) (h : j.Ready MemoryStore.storage m dir) :
    (j.run MemoryStore.storage.traced (m, [])).2.2 = (j.plan dir).map fun a => (a.call, true) := by
  obtain ⟨-, -, -, -, -, -, hall⟩ :=
    Action.performAll_contents (j.plan dir) (j.outputDir MemoryStore.storage m).2
  refine h.calls_of_success ?_
  rw [h.performs.2.1, hall ((j.outputDir_steady m).1.reliable hm)]
  rfl

/-- The output directory does not count for the scripts. -/
theorem generateAll_into (j : Job) (dir : String) : ∀ (fs : List ScriptFile) (g : Generated),
    (j.into dir).generateAll fs g = j.generateAll fs g
  | [], _ => rfl
  | f :: fs, g => by
    have hreport : (j.into dir).report f = j.report f := rfl
    have htext : ∀ code, (j.into dir).scriptText code = j.scriptText code := fun _ => rfl
    rw [generateAll, generateAll, hreport]
    simp only [htext, generateAll_into j dir fs]
    rfl

theorem plan_into (j : Job) (dir : String) : (j.into dir).plan dir = j.plan dir := by
  have hgenerated : (j.into dir).generated = j.generated := j.generateAll_into dir _ _
  rw [plan, plan, hgenerated]
  rfl

theorem outputDir_into {σ : Type} (s : Storage σ) (state : σ) (hne : dir ≠ "") :
    ((j.into dir).outputDir s state).1 = .ok (some dir) := by
  have hchosen : nonempty? (j.into dir).options.outputDir = some dir := by
    simp [nonempty?, into, hne]
  rw [outputDir, hchosen]

/-- The calls of a build with contained names stay inside, whatever the store does. -/
theorem Contained.calls_inside {σ : Type} (h : j.Contained) (s : Storage σ) (state : σ)
    (hdir : (j.outputDir s state).1 = .ok (some dir)) (here : Place) :
    ∀ c ∈ (j.run s.traced (state, [])).2.2, c.1.Inside here dir (j.layout dir).modDir := by
  obtain ⟨root, hroot⟩ := h
  refine run_keeps (P := fun st : σ × Trace => ∀ c ∈ st.2, c.1.Inside here dir _) ?_ ?_ ?_
  · rw [outputDir_traced]
    exact fun c hc => by cases hc
  · intro dir' hdir' hscripts a ha st hst
    rw [outputDir_traced, hdir] at hdir'
    cases hdir'
    rw [Action.request_traced]
    intro c hc
    rcases List.mem_append.mp hc with hc | hc
    · exact hst c hc
    · rw [List.mem_singleton.mp hc]
      exact hroot.inside hscripts (nonempty_of_outputDir hdir) ha
  · exact fun c hc => by cases hc

/-- A build with contained names keeps what is on a disk outside its output directory. -/
theorem Contained.entries_kept (h : j.Contained) {d : Disk}
    (hdir : (j.outputDir Disk.storage d).1 = .ok (some dir)) {place : Place} {e : DiskEntry}
    (hplace : ¬ Place.Below (.ofPath [] dir) place) (he : d.entries.lookup place = some e) :
    (j.run Disk.storage d).2.entries.lookup place = some e := by
  obtain ⟨root, hroot⟩ := h
  refine run_keeps (P := fun d : Disk => d.entries.lookup place = some e) ?_ ?_ he
  · have hsame : (j.outputDir Disk.storage d).2 = d := by
      rw [outputDir]
      cases nonempty? j.options.outputDir <;> rfl
    rw [hsame]
    exact he
  · intro dir' hdir' hscripts a ha d hd
    rw [hdir] at hdir'
    cases hdir'
    have hinside : a.call.Inside [] dir (j.layout dir).modDir :=
      hroot.inside hscripts (nonempty_of_outputDir hdir) ha
    have hbelow := hinside.below
    rw [Action.path_call] at hbelow
    refine Action.kept_request (Action.spares_of_not_prefix fun hat => ?_) hd
    exact hplace (hbelow.of_prefix hat)

/-- **A build stays inside its output directory if the names of its project do.**  Then every call
it makes, whatever the store does, is about something below the output directory, and every file it
writes is below the folder of the mod; on a disk it deletes and overwrites nothing outside.  Names
that do not keep inside lead out: for some output directory, a build from them makes a call that is
not inside. -/
theorem stays_inside_iff (j : Job) :
    (j.Contained → ∀ (σ : Type) (s : Storage σ) (state : σ) (dir : String),
      (j.outputDir s state).1 = .ok (some dir) → ∀ (here : Place),
        ∀ c ∈ (j.run s.traced (state, [])).2.2, c.1.Inside here dir (j.layout dir).modDir) ∧
    (j.Contained → ∀ (d : Disk) (dir : String), (j.outputDir Disk.storage d).1 = .ok (some dir) →
      ∀ (place : Place) (e : DiskEntry), ¬ Place.Below (.ofPath [] dir) place →
        d.entries.lookup place = some e →
          (j.run Disk.storage d).2.entries.lookup place = some e) ∧
    (j.obstacle? = none → (∀ f ∈ j.files, ∃ b, j.Generates f b) →
      (j.Contained ↔ ∀ dir ≠ "", ∀ (here : Place),
        ∀ c ∈ ((j.into dir).run MemoryStore.storage.traced ({}, [])).2.2,
          c.1.Inside here dir (j.layout dir).modDir)) := by
  refine ⟨fun h σ s state dir => h.calls_inside s state,
    fun h d dir hdir place e => h.entries_kept hdir, fun free scripts => ⟨fun h => ?_, fun h => ?_⟩⟩
  · intro dir hne here
    obtain ⟨root, hfolder, hbelow, hfiles⟩ := h
    have hinto : (j.into dir).Contained := ⟨root, hfolder, hbelow, hfiles⟩
    exact hinto.calls_inside _ _ (outputDir_into _ _ hne) here
  · obtain ⟨hscripts, -, -⟩ | ⟨⟨f, hf, hnot⟩, -⟩ := @generated_cases j
    · refine contained_of_inside hscripts fun dir hne a ha => ?_
      have hready : (j.into dir).Ready MemoryStore.storage {} dir :=
        ⟨free, outputDir_into _ _ hne, scripts⟩
      have hcall : (a.call, true) ∈ ((j.into dir).run MemoryStore.storage.traced ({}, [])).2.2 := by
        rw [hready.calls ⟨rfl, rfl, rfl, rfl, rfl⟩, plan_into]
        exact List.mem_map_of_mem ha
      exact h dir hne [] _ hcall
    · obtain ⟨b, hb⟩ := scripts f hf
      exact absurd hb (hnot b)

/-- A mod by an author whose name starts with dots, with a weapon that is named in a roundabout
way. -/
def nook : Job where
  catalog := .builtin
  settings := {}
  project :=
    { metadata := ⟨"Nook", "1.0.0", "", "", "", "", "0.1.0"⟩
      settings := { mod := some { name := "Axes", author := ".." } }
      weapons :=
        [{ id := "a", name := "../weapons//./axe", content := "sharp", createdAt := ""
           modifiedAt := "" }] }
  options := ⟨some "srv/mods/", false⟩

/-- A disk with files beside an output directory and in it. -/
def shed : Disk where
  entries :=
    [(["srv"], .directory), (["srv", "notes.txt"], .file "keep"), (["srv", "mods"], .directory),
     (["srv", "mods", "..-Axes"], .directory), (["srv", "mods", "..-Axes", "old.txt"], .file "old")]

/-- The names of the mod keep inside, so its calls do, and the notes stay. -/
theorem stays_inside_iff_nook :
    nook.Contained ∧ nook.obstacle? = none ∧
    (∀ c ∈ (nook.run Disk.storage.traced (shed, [])).2.2,
      c.1.Inside ["home"] "srv/mods/" "srv/mods/..-Axes") ∧
    (nook.run Disk.storage shed).2.entries.lookup ["srv", "notes.txt"] = some (.file "keep") ∧
    ∀ c ∈ ((nook.into "/").run MemoryStore.storage.traced ({}, [])).2.2,
      c.1.Inside [] "/" "/..-Axes" := by
  have hcontained : nook.Contained := by
    refine ⟨["..-Axes"], by decide +kernel, by decide, fun name hname => ?_⟩
    have hall : ∀ name ∈ nook.fileNames, (Place.descend ["..-Axes"] (Disk.pieces name)).any
        (fun place => decide (Place.Below ["..-Axes"] place)) = true := by decide +kernel
    obtain ⟨place, hplace, hbelow⟩ := (Option.any_eq_true ..).mp (hall name hname)
    exact ⟨place, hplace, of_decide_eq_true hbelow⟩
  have hfree : nook.obstacle? = none := by decide +kernel
  obtain ⟨hcalls, hdisk, hiff⟩ := stays_inside_iff nook
  refine ⟨hcontained, hfree, hcalls hcontained Disk Disk.storage shed _ rfl _, ?_, ?_⟩
  · exact hdisk hcontained shed _ rfl _ _ (by decide +kernel) (by decide +kernel)
  · exact (hiff hfree (by simp [files, nook, Project.scriptFiles])).mp hcontained "/" (by decide) []

/-- A mod whose author is named like a directory next to the output directory. -/
def stray : Job :=
  { nook with
    project :=
      { nook.project with settings := { mod := some { name := "x", author := "../home" } } }
    options := ⟨some "srv/mods", false⟩ }

/-- A mod with a weapon that is named like a file next to the output directory. -/
def smuggler : Job :=
  { stray with
    project :=
      { nook.project with
        settings := { mod := some { name := "x", author := "Ann" } }
        weapons :=
          [{ id := "a", name := "../../../../key", content := "copied", createdAt := ""
             modifiedAt := "" }] } }

/-- A disk with a directory and a file next to an output directory. -/
def house : Disk where
  entries :=
    [(["srv"], .directory), (["srv", "mods"], .directory), (["srv", "key.txt"], .file "brass"),
     (["srv", "home-x"], .directory), (["srv", "home-x", "diary.txt"], .file "private")]

/-- Nothing stands against builds that delete and write outside the output directory: one deletes
the diary, the other overwrites the key. -/
theorem names_lead_out :
    (stray.obstacle? = none ∧ ∃ c ∈ (stray.run Disk.storage.traced (house, [])).2.2,
      ¬ c.1.Inside [] "srv/mods" (stray.layout "srv/mods").modDir ∧
      (stray.run Disk.storage.traced (house, [])).2.1.entries.lookup
        ["srv", "home-x", "diary.txt"] = none) ∧
    smuggler.obstacle? = none ∧ ∃ c ∈ (smuggler.run Disk.storage.traced (house, [])).2.2,
      ¬ c.1.Inside [] "srv/mods" (smuggler.layout "srv/mods").modDir ∧
      (smuggler.run Disk.storage.traced (house, [])).2.1.entries.lookup ["srv", "key.txt"] =
        some (.file "copied") := by
  have hstray : (.deleteDirectory "srv/mods/../home-x", true) ∈
        (stray.run Disk.storage.traced (house, [])).2.2 ∧
      (stray.run Disk.storage.traced (house, [])).2.1.entries.lookup
        ["srv", "home-x", "diary.txt"] = none := by decide +kernel
  have hsmuggler : (.write "srv/mods/Ann-x/scripts/weapons/../../../../key.txt" "copied", true) ∈
        (smuggler.run Disk.storage.traced (house, [])).2.2 ∧
      (smuggler.run Disk.storage.traced (house, [])).2.1.entries.lookup ["srv", "key.txt"] =
        some (.file "copied") := by decide +kernel
  refine ⟨⟨by decide +kernel, _, hstray.1, fun h => ?_, hstray.2⟩,
    by decide +kernel, _, hsmuggler.1, fun h => ?_, hsmuggler.2⟩
  · exact absurd h.below (by decide +kernel)
  · exact absurd h.below (by decide +kernel)

end Job

end VisualScript
