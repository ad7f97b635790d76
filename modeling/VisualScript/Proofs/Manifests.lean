import VisualScript.Catalog.Builtin
import VisualScript.Proofs.Trace

/-!
# Proofs — Manifests

What the manifests of a mod are made of.  The registration list is made of groups of paths, and
grouping only reorders: every script is listed once, under its own clause
(`Registration.listed_groups`).  The descriptor lists a pattern for every token table and the
enabled paths of the mod settings, none of them twice (`Descriptor.mem_paths`,
`Descriptor.nodup_paths`).  With the language of a table in place of the variable at its end, the
pattern is the path at which the table is written (`Descriptor.resolve_pattern`).
-/

namespace VisualScript

/-! ### The registration list -/

namespace Registration

/-- The paths of some groups, each with the clause of its group. -/
def listed (groups : List (String × List String)) : List (String × String) :=
  groups.flatMap fun g => g.2.map fun path => (path, g.1)

/-- A path added to the group of a clause is listed under that clause. -/
theorem listed_set (clause path : String) : ∀ groups : List (String × List String),
    (listed (Assoc.set clause ((groups.lookup clause).getD [] ++ [path]) groups)).Perm
      (listed groups ++ [(path, clause)])
  | [] => .refl _
  | (c, paths) :: groups => by
    cases hc : clause == c with
    | true =>
      obtain rfl := eq_of_beq hc
      have hset : Assoc.set clause
          ((((clause, paths) :: groups).lookup clause).getD [] ++ [path])
          ((clause, paths) :: groups) = (clause, paths ++ [path]) :: groups := by
        simp [Assoc.set]
      rw [hset]
      simp only [listed, List.flatMap_cons, List.map_append, List.map_cons, List.map_nil,
        List.append_assoc]
      exact (List.perm_append_comm).append_left _
    | false =>
      have hc' : (c == clause) = false :=
        beq_eq_false_iff_ne.mpr (beq_eq_false_iff_ne.mp hc).symm
      rw [List.lookup_cons, hc, Assoc.set, hc']
      have ih := listed_set clause path groups
      simp only [listed, List.flatMap_cons, Bool.false_eq_true, if_false,
        List.append_assoc] at ih ⊢
      exact ih.append_left _

/-- What the groups in the order of first sight hold. -/
theorem bySeen_spec (entries : List (String × ScriptContext)) :
    (Assoc.keys (bySeen entries)).Nodup ∧
      (listed (bySeen entries)).Perm (entries.map fun e => (e.1, e.2.clause)) := by
  have hfold : ∀ (entries : List (String × ScriptContext)) (groups : List (String × List String)),
      (Assoc.keys groups).Nodup →
      let seen := entries.foldl (fun groups e =>
        Assoc.set e.2.clause ((groups.lookup e.2.clause).getD [] ++ [e.1]) groups) groups
      (Assoc.keys seen).Nodup ∧
        (listed seen).Perm (listed groups ++ entries.map fun e => (e.1, e.2.clause)) := by
    intro entries
    induction entries with
    | nil => exact fun groups h => ⟨h, by simp⟩
    | cons e entries ih =>
      intro groups h
      obtain ⟨hkeys, hperm⟩ := ih _ (Assoc.nodup_keys_set h)
      refine ⟨hkeys, hperm.trans ?_⟩
      rw [List.map_cons, List.append_cons (listed groups)]
      exact (listed_set e.2.clause e.1 groups).append_right _
  exact hfold entries [] List.nodup_nil

/-- The known clauses come first; the groups are the same. -/
theorem groups_perm (entries : List (String × ScriptContext)) :
    (groups entries).Perm (bySeen entries) := by
  have hkeys := (bySeen_spec entries).1
  have hknown : (clauseOrder.filterMap fun c => ((bySeen entries).lookup c).map fun paths =>
      (c, paths)).Perm ((bySeen entries).filter fun g => clauseOrder.contains g.1) := by
    refine (List.perm_ext_iff_of_nodup ?_ ((List.Nodup.of_map _ hkeys).filter _)).mpr fun g => ?_
    · refine List.Nodup.filterMap (fun c c' g hc hc' => ?_) (by decide)
      obtain ⟨_, -, rfl⟩ := Option.map_eq_some_iff.mp hc
      obtain ⟨_, -, he⟩ := Option.map_eq_some_iff.mp hc'
      exact (Prod.mk.inj he).1.symm
    · rw [List.mem_filterMap, List.mem_filter, List.contains_iff_mem]
      constructor
      · rintro ⟨c, hc, hg⟩
        obtain ⟨paths, hlookup, rfl⟩ := Option.map_eq_some_iff.mp hg
        exact ⟨Assoc.mem_of_lookup hlookup, hc⟩
      · rintro ⟨hg, hc⟩
        exact ⟨g.1, hc, by rw [Assoc.lookup_of_mem hkeys hg]; rfl⟩
  have hsplit := List.filter_append_perm (fun g => clauseOrder.contains g.1) (bySeen entries)
  exact (hknown.append_right _).trans hsplit

/-- **Every script is listed once, under its own clause.** -/
theorem listed_groups (entries : List (String × ScriptContext)) :
    (listed (groups entries)).Perm (entries.map fun e => (e.1, e.2.clause)) :=
  ((groups_perm entries).flatMap_right _).trans (bySeen_spec entries).2

end Registration

/-! ### The descriptor -/

/-- The text with the last occurrence of `old` replaced by `new`, if there is one. -/
def Text.replaceLast? (old new : List Char) : List Char → Option (List Char)
  | []      => none
  | c :: cs => match replaceLast? old new cs with
      | some rest => some (c :: rest)
      | none      =>
          if old.isPrefixOf (c :: cs) then some (new ++ (c :: cs).drop old.length) else none

theorem Text.replaceLast?_append {old new t r : List Char} (h : replaceLast? old new t = some r) :
    ∀ s : List Char, replaceLast? old new (s ++ t) = some (s ++ r)
  | []     => h
  | c :: s => by rw [List.cons_append, replaceLast?, replaceLast?_append h s]; rfl

namespace Descriptor

theorem mem_addPath {paths : List String} {path p : String} :
    p ∈ addPath paths path ↔ p ∈ paths ∨ p = path := by
  rw [addPath]
  split
  case isTrue h => exact ⟨.inl, fun hp => hp.elim id fun he => he ▸ h⟩
  case isFalse => rw [List.mem_append, List.mem_singleton]

theorem nodup_addPath {paths : List String} (h : paths.Nodup) (path : String) :
    (addPath paths path).Nodup := by
  rw [addPath]
  split
  case isTrue => exact h
  case isFalse hp => exact List.nodup_append.mpr ⟨h, List.nodup_singleton _, by grind⟩

theorem foldl_addPath (news paths : List String) (h : paths.Nodup) :
    (news.foldl addPath paths).Nodup ∧
      ∀ p, p ∈ news.foldl addPath paths ↔ p ∈ paths ∨ p ∈ news := by
  induction news generalizing paths with
  | nil => exact ⟨h, fun p => by simp⟩
  | cons path news ih =>
    obtain ⟨hnodup, hmem⟩ := ih (addPath paths path) (nodup_addPath h path)
    refine ⟨hnodup, fun p => ?_⟩
    rw [List.foldl_cons, hmem, mem_addPath, List.mem_cons, or_assoc]

theorem nodup_paths (m : ModSettings) (files : List LocalizationFile) : (paths m files).Nodup :=
  (foldl_addPath _ [] List.nodup_nil).1

theorem mem_paths {m : ModSettings} {files : List LocalizationFile} {p : String} :
    p ∈ paths m files ↔ (∃ f ∈ files, pattern f = p) ∨
      ∃ e ∈ m.localizations, e.enabled = true ∧ e.path = p := by
  rw [paths, (foldl_addPath _ [] List.nodup_nil).2]
  simp [and_assoc]

/-- **The pattern of a table names its file**: with the language in place of the variable at its
end, it is the path of the file below the folder of the mod. -/
theorem resolve_pattern (dir author name : String) (f : LocalizationFile) :
    Text.replaceLast? "%language%".toList f.language.toList
        ((ModLayout.make dir author name).modDir ++ "/" ++ pattern f).toList =
      some ((ModLayout.make dir author name).localization ++ "/" ++ f.fileName).toList := by
  have hend : Text.replaceLast? "%language%".toList f.language.toList "%language%.txt".toList =
      some (f.language ++ ".txt").toList := by
    simp [Text.replaceLast?]
  -- the slash moves from the folder to the pattern, and the variable is cut off
  have hcut : ∀ {a b c d u v w : String} (root base : String), a ++ b = c ++ d → u = v ++ w →
      root ++ a ++ (b ++ base ++ u) = root ++ c ++ d ++ base ++ v ++ w := by
    intro a b c d u v w root base hab huv
    have hleft : root ++ a ++ (b ++ base ++ u) = root ++ (a ++ b) ++ base ++ u := by
      simp only [String.append_assoc]
    rw [hleft, hab, huv]
    simp only [String.append_assoc]
  have hpattern : (ModLayout.make dir author name).modDir ++ "/" ++ pattern f =
      (ModLayout.make dir author name).localization ++ "/" ++ f.baseName ++ "_" ++
        "%language%.txt" :=
    hcut _ _ (by decide) (by decide)
  have hname : (ModLayout.make dir author name).localization ++ "/" ++ f.fileName =
      (ModLayout.make dir author name).localization ++ "/" ++ f.baseName ++ "_" ++
        (f.language ++ ".txt") := by
    have hjoin : ∀ a b c d e g : String,
        a ++ b ++ (c ++ d ++ e ++ g) = a ++ b ++ c ++ d ++ (e ++ g) := by
      intro a b c d e g
      simp only [String.append_assoc]
    rw [LocalizationFile.fileName]
    exact hjoin _ "/" _ "_" _ ".txt"
  rw [hpattern, hname]
  generalize (ModLayout.make dir author name).localization ++ "/" ++ f.baseName ++ "_" = front
  rw [String.toList_append, String.toList_append]
  exact Text.replaceLast?_append hend _

/-- The lines of a descriptor that list localization paths. -/
def listing (listed : List String) : List String :=
  if listed.isEmpty then []
  else
    ["", indent ++ "\"LocalizationFiles\"", indent ++ "\x7b"] ++
      listed.map (fun p => indent ++ pair p "1") ++ [indent ++ "\x7d"]

/-- The lines of a descriptor before those, with the fields of the mod settings. -/
def fields (m : ModSettings) : List String :=
  ["\"mod\"", "\x7b", pair "name" m.name, pair "id" m.id, pair "description" m.description,
   pair "version" m.version, pair "author" m.author]

theorem text_eq (m : ModSettings) (files : List LocalizationFile) : text m files =
    Text.joinLines (fields m ++ listing (paths m files) ++ ["\x7d"]) := rfl

end Descriptor

/-! ### Contexts -/

/-- The context of a report is that of the nodes it is about. -/
theorem Script.context_report {catalog : Catalog} {indent moduleId : String} {nodes : List Node}
    {connections : List Connection} {r : Report}
    (h : report catalog indent moduleId nodes connections = .ok r) :
    r.context = ScriptContext.ofNodes catalog nodes := by
  rw [report] at h
  split at h <;> cases h <;> rfl

end VisualScript
