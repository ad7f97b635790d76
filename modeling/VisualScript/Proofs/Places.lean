import VisualScript.Build.Disk
import VisualScript.Proofs.Rebuilding

/-!
# Proofs — Places

Where a path leads when its `.` and `..` are followed.  A `Place` is the way to a file or directory
from the root; a path is a walk, piece by piece, from the root or from the directory a program runs
in (`Place.ofPath`).  A walk that never climbs above the directory it starts from does the same
below every directory (`Place.walk_descend`), and one that does climb leads out of some directory
(`Place.not_prefix_of_climb`).

The files of a mod have fixed paths below its folder (`Job.fileNames`, `Job.paths_artifacts`).
-/

namespace VisualScript

/-- A file or directory, by the names on the way to it from the root. -/
abbrev Place := List String

namespace Place

/-- Goes on by one piece of a path: `..` leads up, and the root has nothing above it. -/
def step (place : Place) (piece : String) : Place :=
  if piece = "" ∨ piece = "." then place
  else if piece = ".." then place.dropLast
  else place ++ [piece]

/-- Goes on piece by piece. -/
def walk (place : Place) (pieces : List String) : Place := pieces.foldl step place

/-- The place a path leads to; a path that does not start at the root starts at `here`. -/
def ofPath (here : Place) (path : String) : Place :=
  walk (if path.toList.head? = some '/' then [] else here) (Disk.pieces path)

/-- The place lies below a directory and is not the directory itself. -/
def Below (dir place : Place) : Prop := dir <+: place ∧ dir ≠ place

instance (dir place : Place) : Decidable (Below dir place) := inferInstanceAs (Decidable (_ ∧ _))

/-- The way down from a directory, for a walk that is `below` it already; none if the walk climbs
above the directory, even if it comes back. -/
def descend (below : Place) : List String → Option Place
  | []              => some below
  | piece :: pieces =>
      if piece = ".." ∧ below = [] then none else descend (step below piece) pieces

/-! ### Walks -/

theorem walk_append (place : Place) (xs ys : List String) :
    walk place (xs ++ ys) = walk (walk place xs) ys := List.foldl_append

theorem walk_filter {keep : String → Bool}
    (h : ∀ piece, keep piece = false → piece = "" ∨ piece = ".") :
    ∀ (pieces : List String) (place : Place), walk place (pieces.filter keep) = walk place pieces
  | [], _ => rfl
  | piece :: pieces, place => by
    cases hk : keep piece with
    | true =>
      rw [List.filter_cons_of_pos hk]
      exact walk_filter h pieces _
    | false =>
      have hstay : step place piece = place := if_pos (h piece hk)
      rw [List.filter_cons_of_neg (by simp [hk]), walk_filter h pieces]
      exact congrArg (walk · pieces) hstay.symm

theorem mem_step {a piece : String} {place : Place} (h : a ∈ step place piece) :
    a ∈ place ∨ a = piece := by
  rw [step] at h
  split at h
  · exact .inl h
  · split at h
    · exact .inl (List.dropLast_subset _ h)
    · simpa using h

theorem mem_walk {a : String} : ∀ {pieces : List String} {place : Place},
    a ∈ walk place pieces → a ∈ place ∨ a ∈ pieces
  | [], _, h => .inl h
  | piece :: pieces, place, h => by
    rcases @mem_walk a pieces _ h with h | h
    · exact (mem_step h).imp_right fun he => List.mem_cons.mpr (.inl he)
    · exact .inr (.tail _ h)

/-- A step that does not climb does the same below every directory. -/
theorem step_append {below : Place} {piece : String} (h : ¬ (piece = ".." ∧ below = []))
    (dir : Place) : step (dir ++ below) piece = dir ++ step below piece := by
  rw [step, step]
  split
  · rfl
  · split
    case isTrue hup => rw [List.dropLast_append_of_ne_nil fun hb => h ⟨hup, hb⟩]
    case isFalse => rw [List.append_assoc]

theorem walk_descend {dir : Place} : ∀ {pieces : List String} {below place : Place},
    descend below pieces = some place → walk (dir ++ below) pieces = dir ++ place
  | [], below, place, h => by
    cases h
    rfl
  | piece :: pieces, below, place, h => by
    rw [descend] at h
    split at h
    case isTrue => cases h
    case isFalse hstep =>
      rw [← walk_descend h, ← step_append hstep]
      rfl

/-- A walk that climbs does not come back to a directory whose name it does not know. -/
theorem not_prefix_of_climb {name : String} : ∀ {pieces : List String} {below : Place},
    descend below pieces = none → name ∉ pieces → ¬ [name] <+: walk (name :: below) pieces
  | [], _, h, _ => by cases h
  | piece :: pieces, below, h, hname => by
    rw [descend] at h
    split at h
    case isTrue hup =>
      obtain ⟨rfl, rfl⟩ := hup
      have htop : walk [name] (".." :: pieces) = walk [] pieces := rfl
      rintro ⟨rest, hrest⟩
      have hmem : name ∈ walk [] pieces := by
        rw [← htop, ← hrest]
        exact .head _
      exact hname (.tail _ ((mem_walk hmem).resolve_left List.not_mem_nil))
    case isFalse hstep =>
      have hnext : walk (name :: below) (piece :: pieces) =
          walk (name :: step below piece) pieces :=
        congrArg (walk · pieces) (step_append hstep [name])
      rw [hnext]
      exact not_prefix_of_climb h fun hm => hname (.tail _ hm)

theorem below_append {dir rest : Place} : Below dir (dir ++ rest) ↔ rest ≠ [] := by
  simp [Below]

/-- Two names below a directory, the last step of a walk has started below it. -/
theorem below_of_step {dir place rest : Place} {piece : String}
    (h : step place piece = dir ++ rest) (hrest : 2 ≤ rest.length) : Below dir place := by
  have hne : rest ≠ [] := by
    rintro rfl
    simp at hrest
  rw [step] at h
  split at h
  · exact h ▸ below_append.mpr hne
  · split at h
    · have hplace : place ≠ [] := by
        rintro rfl
        exact hne (List.append_eq_nil_iff.mp h.symm).2
      rw [← List.dropLast_append_getLast hplace, h, List.append_assoc]
      exact below_append.mpr (by simp)
    · have hinit : place = dir ++ rest.dropLast := by
        have hlast := congrArg List.dropLast h
        rwa [List.dropLast_concat, List.dropLast_append_of_ne_nil hne] at hlast
      rw [hinit]
      refine below_append.mpr fun hnil => ?_
      have hlength := congrArg List.length hnil
      simp at hlength
      omega

end Place

/-! ### Paths -/

namespace Disk

theorem pieces_join (dir rest : String) :
    pieces (dir ++ "/" ++ rest) = pieces dir ++ pieces rest := by
  have htext : (dir ++ "/" ++ rest).toList = dir.toList ++ '/' :: rest.toList := by simp
  rw [pieces, htext, List.splitOn_append_cons_self, List.map_append]
  rfl

/-- A path with a slash ends in a piece behind its last slash. -/
theorem exists_last {path : String} (h : '/' ∈ path.toList) :
    ∃ front last : String, '/' ∉ last.toList ∧ path = front ++ "/" ++ last := by
  obtain ⟨back, rest, hsplit, hback⟩ := List.eq_append_cons_of_mem (List.mem_reverse.mpr h)
  refine ⟨String.ofList rest.reverse, String.ofList back.reverse, by simpa using hback, ?_⟩
  rw [← String.toList_inj, ← List.reverse_inj, hsplit]
  simp

theorem pieces_of_no_slash {name : String} (h : '/' ∉ name.toList) : pieces name = [name] := by
  rw [pieces, List.splitOn_eq_singleton h]
  simp

/-- The pieces of a path between slashes give the path. -/
theorem pieces_injective : Function.Injective pieces := by
  intro a b h
  have hcut : a.toList.splitOn '/' = b.toList.splitOn '/' :=
    List.map_injective_iff.mpr (fun _ _ => String.ofList_inj.mp) h
  have hjoin := congrArg (List.intercalate ['/']) hcut
  rw [List.intercalate_splitOn, List.intercalate_splitOn] at hjoin
  exact String.toList_inj.mp hjoin

end Disk

namespace ModLayout

theorem withoutSlashes_spec (dir : String) :
    ∃ k, dir.toList = (withoutSlashes dir).toList ++ List.replicate k '/' := by
  have hsplit := congrArg List.reverse
    (List.takeWhile_append_dropWhile (p := (· == '/')) (l := dir.toList.reverse))
  rw [List.reverse_append, List.reverse_reverse] at hsplit
  have hslashes : ∀ c ∈ dir.toList.reverse.takeWhile (· == '/'), c = '/' :=
    fun c hc => by simpa using List.all_eq_true.mp List.all_takeWhile c hc
  refine ⟨(dir.toList.reverse.takeWhile (· == '/')).length, hsplit.symm.trans ?_⟩
  rw [withoutSlashes, String.toList_ofList, ← List.reverse_replicate,
    ← List.eq_replicate_of_mem hslashes]

end ModLayout

namespace Place

variable {here : Place}

theorem ofPath_join {dir : String} (hne : dir ≠ "") (rest : String) :
    ofPath here (dir ++ "/" ++ rest) = walk (ofPath here dir) (Disk.pieces rest) := by
  have hhead : (dir ++ "/" ++ rest).toList.head? = dir.toList.head? := by
    have hdir : dir.toList ≠ [] := fun h => hne (String.toList_eq_nil_iff.mp h)
    rw [String.toList_append, String.toList_append, List.append_assoc,
      List.head?_append_of_ne_nil _ hdir]
  rw [ofPath, hhead, Disk.pieces_join, walk_append]
  rfl

/-- Slashes at the end of a directory do not count. -/
theorem ofPath_withoutSlashes {dir : String} (hne : dir ≠ "") (rest : String) :
    ofPath here (ModLayout.withoutSlashes dir ++ "/" ++ rest) =
      walk (ofPath here dir) (Disk.pieces rest) := by
  obtain ⟨k, hdir⟩ := ModLayout.withoutSlashes_spec dir
  have hstay : ∀ (k : Nat) (place : Place),
      walk place (((List.replicate k '/').splitOn '/').map String.ofList) = place := by
    intro k
    induction k with
    | zero => exact fun _ => rfl
    | succ k ih =>
      intro place
      rw [List.replicate_succ, ← List.nil_append ('/' :: _), List.splitOn_append_cons_self,
        List.map_append, walk_append, ih]
      rfl
  have hpieces : ∀ place, walk place (Disk.pieces dir) =
      walk place (Disk.pieces (ModLayout.withoutSlashes dir)) := by
    intro place
    rw [Disk.pieces, hdir]
    cases k with
    | zero =>
      rw [List.replicate_zero, List.append_nil]
      rfl
    | succ k =>
      rw [List.replicate_succ, List.splitOn_append_cons_self, List.map_append, walk_append,
        hstay]
      rfl
  have hhead : (ModLayout.withoutSlashes dir ++ "/" ++ rest).toList.head? = dir.toList.head? := by
    rw [hdir, String.toList_append, String.toList_append, List.append_assoc]
    cases hbase : (ModLayout.withoutSlashes dir).toList with
    | cons c cs => rfl
    | nil =>
      cases k with
      | succ k => rfl
      | zero =>
        rw [hbase] at hdir
        exact absurd (String.toList_eq_nil_iff.mp hdir) hne
  rw [ofPath, hhead, Disk.pieces_join, walk_append, ofPath, hpieces]

end Place

theorem Artifact.parentOf_join (front : String) {last : String} (h : '/' ∉ last.toList) :
    parentOf (front ++ "/" ++ last) = front := by
  have htext : (front ++ "/" ++ last).toList.reverse =
      last.toList.reverse ++ '/' :: front.toList.reverse := by simp
  have hdrop : (front ++ "/" ++ last).toList.reverse.dropWhile (· != '/') =
      '/' :: front.toList.reverse := by
    rw [htext, List.dropWhile_append_of_pos fun c hc => ?_]
    · rfl
    · exact bne_iff_ne.mpr fun he => h (List.mem_reverse.mp (he ▸ hc))
  rw [parentOf, hdrop]
  simp

/-- A file lies one piece beyond its directory. -/
theorem Artifact.exists_path_eq (a : Artifact) :
    ∃ last : String, '/' ∉ last.toList ∧ a.path = a.parent ++ "/" ++ last := by
  obtain ⟨front, last, hlast, hpath⟩ := @Disk.exists_last a.path (by simp [Artifact.path])
  exact ⟨last, hlast, by rw [parent, hpath, parentOf_join front hlast]⟩

/-! ### The files of a mod -/

/-- The path of a layout or menu file below the folder of the mod. -/
def InterfaceFile.fileName (f : InterfaceFile) : String :=
  match f.kind with
  | .menu => "resource/ui/menus/" ++ withExtension f.name ".menu"
  | .res  => "resource/ui/" ++ withExtension f.name ".res"

namespace Job

/-- The files of a mod by their paths below its folder, in the order in which they are written. -/
def fileNames (j : Job) : List String :=
  j.files.map (fun f => "scripts/vscripts/" ++ scriptFileName j.settings f.name) ++
  j.project.weapons.map (fun f => "scripts/weapons/" ++ withExtension f.name ".txt") ++
  j.project.interfaces.map (·.fileName) ++
  j.project.localizations.map (fun f => "resource/localization/" ++ f.fileName) ++
  ["scripts/vscripts/scripts.rson", "mod.vdf"]

/-- **What a build writes**: the files of the mod, below its folder. -/
theorem paths_artifacts {j : Job} (h : List.Forall₂ j.Generates j.files j.generated.scripts)
    (dir : String) : (j.artifacts dir).map (·.path) =
      j.fileNames.map fun name => (j.layout dir).modDir ++ "/" ++ name := by
  have hcut : ∀ {a c : String}, a ++ "/" = "/" ++ c → ∀ root name : String,
      root ++ a ++ "/" ++ name = root ++ "/" ++ (c ++ name) := by
    intro a c h root name
    have hleft : root ++ a ++ "/" ++ name = root ++ (a ++ "/") ++ name := by
      simp only [String.append_assoc]
    rw [hleft, h]
    simp only [String.append_assoc]
  have hscripts : j.generated.scripts.map (fun b => (j.layout dir).vscripts ++ "/" ++ b.path) =
      j.files.map fun f => (j.layout dir).modDir ++ "/" ++
        ("scripts/vscripts/" ++ scriptFileName j.settings f.name) :=
    map_eq_of_forall₂ h fun hb => by
      obtain ⟨_, _, _, -, -, -, rfl⟩ := hb
      exact hcut (by decide) _ _
  have hlist : (j.layout dir).vscripts ++ "/" ++ "scripts.rson" =
      (j.layout dir).modDir ++ "/" ++ "scripts/vscripts/scripts.rson" :=
    (@hcut _ "scripts/vscripts/" (by decide) _ "scripts.rson").trans
      (congrArg _ (by decide))
  have hinterface : ∀ f, (Plan.interface (j.layout dir) f).path =
      (j.layout dir).modDir ++ "/" ++ f.fileName := by
    intro f
    rw [Plan.interface, InterfaceFile.fileName]
    cases f.kind with
    | menu => exact hcut (by decide) _ _
    | res => exact hcut (by decide) _ _
  simp only [artifacts, Plan.artifacts, fileNames, List.map_append, List.map_map]
  refine congrArg₂ _ (congrArg₂ _ (congrArg₂ _ (congrArg₂ _ hscripts ?_) ?_) ?_) ?_
  · exact List.map_congr_left fun f _ => hcut (by decide) _ _
  · exact List.map_congr_left fun f _ => hinterface f
  · exact List.map_congr_left fun f _ => hcut (by decide) _ _
  · exact congrArg (· :: [(j.layout dir).modDir ++ "/" ++ "mod.vdf"]) hlist

theorem filterMap_plan (j : Job) (dir : String) :
    (j.plan dir).filterMap Action.written? = (j.artifacts dir).map (·.path) := by
  refine (Plan.staged (j.layout dir) j.modSettings j.project j.generated.scripts).files.trans ?_
  simp only [artifacts, Plan.artifacts, List.map_append, List.map_map]
  rfl

end Job

end VisualScript
