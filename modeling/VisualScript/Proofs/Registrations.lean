import Mathlib.Data.List.Induction
import VisualScript.Proofs.Manifests

/-!
# Proofs — Registrations

The registration list as a grouping of its entries, and reading it back.  The groups are tabulated
by clause (`Registration.groups_eq`): the clauses are those of the entries, the known ones in their
own order and the others as first seen, and each has its entries in their order.

A path stands behind a tab, so no path looks like the end of a group or the head of another one to a
reader that takes the list line by line (`Registration.foldlM_groupLines`).

* `Registration.stable_grouping`: what the groups are, and that the list is read as the groups.
-/

namespace VisualScript

/-! ### Tabulated tables -/

namespace Assoc

variable {κ β : Type} [DecidableEq κ] {f : κ → β} {ks : List κ}

theorem lookup_tabulate (key : κ) (ks : List κ) :
    (ks.map fun k => (k, f k)).lookup key = if key ∈ ks then some (f key) else none := by
  induction ks with
  | nil => rfl
  | cons k ks ih =>
    rw [List.map_cons, List.lookup_cons, ih]
    by_cases h : key = k
    · simp [h]
    · simp [h, beq_eq_false_iff_ne.mpr h]

theorem set_tabulate (key : κ) (value : β) (hks : ks.Nodup) :
    set key value (ks.map fun k => (k, f k)) =
      (if key ∈ ks then ks else ks ++ [key]).map fun k => (k, if k = key then value else f k) := by
  induction ks with
  | nil => simp [set]
  | cons k ks ih =>
    obtain ⟨hk, hnodup⟩ := List.nodup_cons.mp hks
    rw [List.map_cons, set]
    by_cases h : k = key
    · subst h
      have hrest : ∀ k' ∈ ks, (k', f k') = (k', if k' = k then value else f k') := by
        rintro k' hk'
        rw [if_neg]
        rintro rfl
        exact hk hk'
      simp [List.map_congr_left hrest]
    · rw [beq_eq_false_iff_ne.mpr h, if_neg Bool.false_ne_true, ih hnodup]
      by_cases hmem : key ∈ ks <;> simp [hmem, h, Ne.symm h]

end Assoc

namespace Registration

/-! ### Groups -/

/-- The clauses of some entries. -/
def clauses (entries : List (String × ScriptContext)) : List String := entries.map (·.2.clause)

/-- The paths that belong under a clause, in their order. -/
def pathsUnder (entries : List (String × ScriptContext)) (clause : String) : List String :=
  (entries.filter (·.2.clause = clause)).map (·.1)

/-- The groups put every entry under its clause and keep the order. -/
structure Grouped (entries : List (String × ScriptContext)) (groups : List (String × List String)) :
    Prop where
  /-- Every entry is in one group, that of its own clause. -/
  listed   : (listed groups).Perm (entries.map fun e => (e.1, e.2.clause))
  /-- The paths of a group are in the order of the entries. -/
  paths    : ∀ g ∈ groups, g.2 = pathsUnder entries g.1
  nonempty : ∀ g ∈ groups, g.2 ≠ []
  distinct : (groups.map Prod.fst).Nodup
  /-- The known clauses come in their own order, then the others as first seen. -/
  order    : groups.map Prod.fst =
    clauseOrder.filter (· ∈ clauses entries) ++
      (clauses entries).eraseDups.filter (· ∉ clauseOrder)

variable {entries : List (String × ScriptContext)}

theorem eraseDups_concat (cs : List String) (c : String) :
    (cs ++ [c]).eraseDups =
      if c ∈ cs.eraseDups then cs.eraseDups else cs.eraseDups ++ [c] := by
  rw [List.eraseDups_append, List.removeAll]
  by_cases h : c ∈ cs <;> simp [h, List.eraseDups_cons]

theorem pathsUnder_concat (e : String × ScriptContext) (clause : String) :
    pathsUnder (entries ++ [e]) clause =
      if clause = e.2.clause then pathsUnder entries clause ++ [e.1]
      else pathsUnder entries clause := by
  rw [pathsUnder, pathsUnder, List.filter_append, List.map_append]
  by_cases h : e.2.clause = clause
  · simp [h]
  · simp [h, Ne.symm h]

theorem pathsUnder_eq_nil {clause : String} :
    pathsUnder entries clause = [] ↔ clause ∉ clauses entries := by
  simp [pathsUnder, clauses, List.filter_eq_nil_iff]

/-- The groups in the order of first sight are tabulated by the clauses. -/
theorem bySeen_eq (entries : List (String × ScriptContext)) :
    bySeen entries = (clauses entries).eraseDups.map fun c => (c, pathsUnder entries c) := by
  induction entries using List.reverseRecOn with
  | nil => rfl
  | append_singleton entries e ih =>
    have hnodup : (clauses entries).eraseDups.Nodup := by
      have hkeys := (bySeen_spec entries).1
      rwa [ih, Assoc.keys, List.map_map, List.map_id''] at hkeys
      exact fun _ => rfl
    have hfold : bySeen (entries ++ [e]) = Assoc.set e.2.clause
        (((bySeen entries).lookup e.2.clause).getD [] ++ [e.1]) (bySeen entries) := by
      rw [bySeen, List.foldl_append]
      rfl
    have hold : ((bySeen entries).lookup e.2.clause).getD [] = pathsUnder entries e.2.clause := by
      rw [ih, Assoc.lookup_tabulate]
      split
      case isTrue => rfl
      case isFalse h => exact (pathsUnder_eq_nil.mpr fun hm => h (List.mem_eraseDups.mpr hm)).symm
    have hclauses : (clauses (entries ++ [e])).eraseDups =
        if e.2.clause ∈ (clauses entries).eraseDups then (clauses entries).eraseDups
        else (clauses entries).eraseDups ++ [e.2.clause] := by
      rw [clauses, List.map_append]
      exact eraseDups_concat _ _
    rw [hfold, hold, ih, Assoc.set_tabulate _ _ hnodup, hclauses]
    refine List.map_congr_left fun c _ => ?_
    rw [pathsUnder_concat]
    split
    case isTrue h => rw [h]
    case isFalse => rfl

/-- **The groups are tabulated by the clauses of the entries**, the known ones first. -/
theorem groups_eq (entries : List (String × ScriptContext)) : groups entries =
    (clauseOrder.filter (· ∈ clauses entries) ++
      (clauses entries).eraseDups.filter (· ∉ clauseOrder)).map
        fun c => (c, pathsUnder entries c) := by
  have hknown : ∀ cs : List String,
      (cs.filterMap fun c => ((bySeen entries).lookup c).map fun paths => (c, paths)) =
        (cs.filter (· ∈ clauses entries)).map fun c => (c, pathsUnder entries c) := by
    intro cs
    induction cs with
    | nil => rfl
    | cons c cs ih =>
      rw [bySeen_eq, List.filterMap_cons, Assoc.lookup_tabulate, ← bySeen_eq, ih,
        List.filter_cons]
      by_cases h : c ∈ clauses entries <;> simp [h]
  have hothers : ((bySeen entries).filter fun g => !clauseOrder.contains g.1) =
      ((clauses entries).eraseDups.filter (· ∉ clauseOrder)).map
        fun c => (c, pathsUnder entries c) := by
    rw [bySeen_eq, List.filter_map]
    simp [Function.comp_def]
  rw [List.map_append, ← hknown, ← hothers]
  rfl

theorem groups_grouped (entries : List (String × ScriptContext)) :
    Grouped entries (groups entries) where
  listed := listed_groups entries
  paths := by
    intro g hg
    rw [groups_eq] at hg
    obtain ⟨c, -, rfl⟩ := List.mem_map.mp hg
    rfl
  nonempty := by
    intro g hg
    rw [groups_eq] at hg
    obtain ⟨c, hc, rfl⟩ := List.mem_map.mp hg
    rw [Ne, pathsUnder_eq_nil, not_not]
    rcases List.mem_append.mp hc with hc | hc
    · simpa using (List.mem_filter.mp hc).2
    · exact List.mem_eraseDups.mp (List.mem_filter.mp hc).1
  distinct := ((groups_perm entries).map Prod.fst).nodup_iff.mpr (bySeen_spec entries).1
  order := by
    rw [groups_eq, List.map_map]
    exact List.map_id'' (fun _ => rfl) _

/-! ### Reading the list -/

/-- Where a reader of the list is: between groups, behind the clause of one, behind the title of its
paths, or among its paths. -/
inductive Cursor where
  | between
  | headed (clause : String)
  | titled (clause : String)
  | inside (clause : String) (paths : List String)

/-- The clause in the head of a group. -/
def clause? (line : List Char) : Option String :=
  (("When: \"".toList.isPrefixOf? line).bind (['"'].isSuffixOf? ·)).map String.ofList

/-- Takes one line, with the groups that have been read. -/
def step : List (String × List String) × Cursor → List Char →
    Option (List (String × List String) × Cursor)
  | (gs, .between),     []           => some (gs, .between)
  | (gs, .between),     line         => (clause? line).map fun c => (gs, .headed c)
  | (gs, .headed c),    line         =>
      if line = "Scripts:".toList then some (gs, .titled c) else none
  | (gs, .titled c),    line         => if line = ['['] then some (gs, .inside c []) else none
  | (gs, .inside c ps), [']']        => some (gs ++ [(c, ps)], .between)
  | (gs, .inside c ps), '\t' :: path => some (gs, .inside c (ps ++ [String.ofList path]))
  | (_, .inside _ _),   _            => none

/-- The groups, if the list does not end in one. -/
def finished? : List (String × List String) × Cursor → Option (List (String × List String))
  | (gs, .between) => some gs
  | _              => none

/-- Reads a registration list line by line. -/
def read? (text : String) : Option (List (String × List String)) :=
  ((text.toList.splitOn '\n').foldlM step ([], .between)).bind finished?

theorem clause?_head (clause : String) :
    clause? ("When: \"".toList ++ (clause.toList ++ ['"'])) = some clause := by
  have hhead : "When: \"".toList.isPrefixOf? ("When: \"".toList ++ (clause.toList ++ ['"'])) =
      some (clause.toList ++ ['"']) := List.isPrefixOf?_eq_some_iff_append_eq.mpr rfl
  have hend : ['"'].isSuffixOf? (clause.toList ++ ['"']) = some clause.toList :=
    List.isSuffixOf?_eq_some_iff_append_eq.mpr rfl
  rw [clause?, hhead, Option.bind_some, hend, Option.map_some, String.ofList_toList]

variable {gs : List (String × List String)}

/-- Lines with paths are read as the paths. -/
theorem foldlM_paths (clause : String) : ∀ (paths ps : List String),
    (paths.map fun p => ("\t" ++ p).toList).foldlM step (gs, .inside clause ps) =
      some (gs, .inside clause (ps ++ paths))
  | [], ps => by simp
  | p :: paths, ps => by
    have hline : ("\t" ++ p).toList = '\t' :: p.toList := by simp
    rw [List.map_cons, List.foldlM_cons, hline, step, String.ofList_toList]
    simpa using foldlM_paths clause paths (ps ++ [p])

/-- **The lines of a group are read as the group**, whatever its paths are. -/
theorem foldlM_groupLines (g : String × List String) :
    ((groupLines g).map String.toList).foldlM step (gs, .between) = some (gs ++ [g], .between) := by
  have hlines : (groupLines g).map String.toList =
      ("When: \"".toList ++ (g.1.toList ++ ['"'])) :: "Scripts:".toList :: ['['] ::
        ((g.2.map fun p => ("\t" ++ p).toList) ++ [[']'], []]) := by
    simp [groupLines]
  have hhead : step (gs, .between) ("When: \"".toList ++ (g.1.toList ++ ['"'])) =
      some (gs, .headed g.1) := by
    rw [step, clause?_head]
    · rfl
    · simp
  rw [hlines, List.foldlM_cons, hhead]
  show ((g.2.map fun p => ("\t" ++ p).toList) ++ [[']'], []]).foldlM step
    (gs, .inside g.1 []) = some (gs ++ [g], .between)
  rw [List.foldlM_append, foldlM_paths]
  rfl

theorem foldlM_groups : ∀ (news gs : List (String × List String)),
    ((news.flatMap groupLines).map String.toList).foldlM step (gs, .between) =
      some (gs ++ news, .between)
  | [], gs => by simp
  | g :: news, gs => by
    rw [List.flatMap_cons, List.map_append, List.foldlM_append, foldlM_groupLines]
    simpa using foldlM_groups news (gs ++ [g])

theorem newline_not_mem_groupLines {g : String × List String} (hclause : '\n' ∉ g.1.toList)
    (hpaths : ∀ p ∈ g.2, '\n' ∉ p.toList) : ∀ line ∈ groupLines g, '\n' ∉ line.toList := by
  intro line hline
  simp only [groupLines, List.mem_append, List.mem_cons, List.mem_map, List.not_mem_nil,
    or_false] at hline
  rcases hline with ((rfl | rfl | rfl) | ⟨p, hp, rfl⟩) | rfl | rfl
  · simp [hclause]
  · decide
  · decide
  · simp [hpaths p hp]
  · decide
  · decide

/-- Groups without line feeds are read back from their lines. -/
theorem read?_joinLines (hclauses : ∀ g ∈ gs, '\n' ∉ g.1.toList)
    (hpaths : ∀ g ∈ gs, ∀ p ∈ g.2, '\n' ∉ p.toList) :
    read? (Text.joinLines (gs.flatMap groupLines)) = some gs := by
  by_cases hgs : gs = []
  · subst hgs
    rfl
  have hne : (gs.flatMap groupLines).map String.toList ≠ [] := by
    obtain ⟨g, rest, rfl⟩ := List.exists_cons_of_ne_nil hgs
    simp [groupLines]
  have hlines : (Text.joinLines (gs.flatMap groupLines)).toList.splitOn '\n' =
      (gs.flatMap groupLines).map String.toList := by
    rw [Text.joinLines, String.toList_intercalate]
    refine List.splitOn_intercalate '\n' (fun cs hcs => ?_) hne
    obtain ⟨line, hline, rfl⟩ := List.mem_map.mp hcs
    obtain ⟨g, hg, hline⟩ := List.mem_flatMap.mp hline
    exact newline_not_mem_groupLines (hclauses g hg) (hpaths g hg) line hline
  rw [read?, hlines, foldlM_groups]
  rfl

theorem newline_not_mem_clause (c : ScriptContext) : '\n' ∉ c.clause.toList := by
  obtain ⟨server, client, ui⟩ := c
  cases server <;> cases client <;> cases ui <;> decide

/-- Entries without line feeds are read back as their groups. -/
theorem read?_text (h : ∀ e ∈ entries, '\n' ∉ e.1.toList) :
    read? (text entries) = some (groups entries) := by
  have hgrouped := groups_grouped entries
  refine read?_joinLines (fun g hg => ?_) fun g hg p hp => ?_
  · have hclause : g.1 ∈ clauses entries := by
      rw [← not_not (a := _ ∈ _), ← pathsUnder_eq_nil, ← hgrouped.paths g hg]
      exact hgrouped.nonempty g hg
    obtain ⟨e, -, he⟩ := List.mem_map.mp hclause
    exact he ▸ newline_not_mem_clause e.2
  · rw [hgrouped.paths g hg] at hp
    obtain ⟨e, he, rfl⟩ := List.mem_map.mp hp
    exact h e (List.mem_filter.mp he).1

/-- **The registration list is a stable grouping that can be read back.**  Every entry is in one
group, that of its own clause; no group is empty and no clause has two; the paths of a group are in
the order of the entries, the known clauses in their own order, and the others behind them as first
seen.  If no path has a line feed, a reader that takes the list line by line gets the groups back,
whatever else the paths look like. -/
theorem stable_grouping (entries : List (String × ScriptContext)) :
    Grouped entries (groups entries) ∧
      ((∀ e ∈ entries, '\n' ∉ e.1.toList) → read? (text entries) = some (groups entries)) :=
  ⟨groups_grouped entries, read?_text⟩

/-- Entries whose paths look like other lines of the list, with contexts that share a clause and
clauses that are not known. -/
def lookalikes : List (String × ScriptContext) :=
  [("]", { client := true, ui := true }), ("", {}), ("When: \"UI\"", { server := true }),
   ("Scripts:", { server := true, client := true }), ("]", {}),
   ("\t[", { server := true, ui := true })]

theorem stable_grouping_lookalikes :
    (∀ e ∈ lookalikes, '\n' ∉ e.1.toList) ∧
    read? (text lookalikes) =
      some [("SERVER || CLIENT", ["", "Scripts:", "]"]), ("SERVER", ["When: \"UI\""]),
        ("CLIENT || UI", ["]"]), ("SERVER || UI", ["\t["])] := by
  have hpaths : ∀ e ∈ lookalikes, '\n' ∉ e.1.toList := by decide
  exact ⟨hpaths, (stable_grouping lookalikes).2 hpaths⟩

end Registration

end VisualScript
