import VisualScript.Proofs.Places

/-!
# Proofs — Entries

What a build does to the entries of a disk.  Where a disk follows a path it ends at the place the
path leads to (`Disk.follow_ok`).  A request that deletes touches what is at or below that place,
one that creates adds entries, and one that writes sets one entry; nothing else is changed.

* `Action.kept_request`: an action keeps every entry that it spares.
* `Job.run_keeps`: what every action of a plan keeps, the build keeps.
-/

namespace VisualScript

theorem Assoc.lookup_mapValues {κ β : Type} [BEq κ] [LawfulBEq κ] (g : κ → β → β) (key : κ) :
    ∀ table : List (κ × β),
      (table.map fun e => (e.1, g e.1 e.2)).lookup key = (table.lookup key).map (g key)
  | [] => rfl
  | (k, v) :: table => by
    rw [List.map_cons, List.lookup_cons, List.lookup_cons, lookup_mapValues g key table]
    cases hk : key == k with
    | true =>
      obtain rfl := eq_of_beq hk
      rfl
    | false => rfl

namespace Disk

variable {d d' : Disk} {parts : List String} {place there : Place} {part : String}

/-! ### Following a path -/

/-- One component leads where the piece of a path leads, if it leads anywhere but to a file. -/
theorem step_eq (hpart : part ≠ "") (h : d.step place part = .ok there) :
    there = Place.step place part := by
  rw [step] at h
  rw [Place.step]
  split at h
  case isTrue hdot =>
    cases h
    rw [if_pos (.inr hdot)]
  case isFalse hdot =>
    rw [if_neg (by simp [hpart, hdot])]
    split at h
    case isTrue hup =>
      cases h
      rw [if_pos hup]
    case isFalse hup =>
      rw [if_neg hup]
      split at h
      · cases h
      · split at h <;> cases h
        rfl

theorem step_of_notDirectory (hpart : part ≠ "") (h : d.step place part = .error .notDirectory) :
    place ++ [part] = Place.step place part := by
  rw [step] at h
  rw [Place.step]
  split at h
  · cases h
  case isFalse hdot =>
    rw [if_neg (by simp [hpart, hdot])]
    split at h
    · cases h
    case isFalse hup => rw [if_neg hup]

/-- A disk follows a path to the place it leads to. -/
theorem follow_ok (hparts : ∀ part ∈ parts, part ≠ "") (h : d.follow parts = .ok place) :
    place = Place.walk [] parts := by
  have hfold := foldlM_ok (f := d.step)
    (fun taken there => (∀ part ∈ taken, part ≠ "") → there = Place.walk [] taken)
    (fun taken part there there' ih hstep hall => ?_) parts [] [] place (fun _ => rfl) h
  · exact hfold hparts
  · rw [Place.walk_append, ← ih fun p hp => hall p (List.mem_append_left _ hp)]
    exact step_eq (hall part (by simp)) hstep

theorem find_ok {e : DiskEntry} (hparts : ∀ part ∈ parts, part ≠ "")
    (h : d.find parts = .ok (place, e)) : place = Place.walk [] parts := by
  rw [find] at h
  split at h
  · cases h
  · split at h
    case h_1 hnone =>
      cases h
      rw [List.getLast?_eq_none_iff.mp hnone]
      rfl
    case h_2 last hlast =>
      obtain ⟨start, hstart, h⟩ := bind_eq_ok.mp h
      have hsplit : parts = parts.dropLast ++ [last] :=
        (List.dropLast_append_getLast? last hlast).symm
      have hinit := follow_ok (fun p hp => hparts p (List.dropLast_subset _ hp)) hstart
      have hpart : last ≠ "" := hparts last (List.mem_of_getLast? hlast)
      have hwalk : Place.walk [] parts = Place.step start last := by
        rw [hsplit, Place.walk_append, ← hinit]
        rfl
      rw [hwalk]
      split at h
      case h_1 hstep =>
        cases h
        exact step_eq hpart hstep
      case h_2 hstep =>
        split at h <;> cases h
        exact step_of_notDirectory hpart hstep
      case h_3 => cases h

theorem components_ne {path : String} : ∀ part ∈ components path, part ≠ "" := by
  intro part h
  have hkeep := (List.mem_filter.mp h).2
  simp only [Bool.and_eq_true, bne_iff_ne] at hkeep
  exact hkeep.1

theorem walk_pieces (path : String) : Place.walk [] (pieces path) = Place.ofPath [] path := by
  rw [Place.ofPath, ite_self]

theorem walk_components (path : String) :
    Place.walk [] (components path) = Place.ofPath [] path := by
  rw [← walk_pieces]
  refine Place.walk_filter (fun piece h => ?_) _ _
  simpa [imp_iff_or_not, or_comm] using h

/-! ### Deleting -/

/-- A directory is deleted with what is below it, and with nothing else. -/
theorem kept_deleteDirectory {path : String} (hplace : ¬ Place.ofPath [] path <+: place) :
    (d.deleteDirectory path).2.entries.lookup place = d.entries.lookup place := by
  have hclear : ∀ (d : Disk) {root : Place}, ¬ root <+: place →
      (d.clear root).entries.lookup place = d.entries.lookup place := by
    intro d root hroot
    have hnot : root.isPrefixOf place = false := by
      rw [← Bool.not_eq_true, List.isPrefixOf_iff_prefix]
      exact hroot
    rw [clear, Assoc.lookup_filter fun p => !(root.isPrefixOf p && p != root), hnot]
    rfl
  rw [deleteDirectory]
  split
  · rfl
  · split
    case h_1 | h_2 | h_3 => rfl
    case h_4 root hfind =>
      have hroot : root = Place.ofPath [] path := by
        rw [← walk_components]
        exact find_ok components_ne hfind
      subst hroot
      dsimp only
      split
      case h_2 => exact hclear d hplace
      case h_1 d' hremove =>
        rw [← hclear d hplace]
        rw [removeEmpty] at hremove
        split at hremove
        · cases hremove
        · obtain ⟨_, -, hremove⟩ := bind_eq_ok.mp hremove
          split at hremove
          · cases hremove
          · cases hremove
            rw [Assoc.lookup_filter fun p => p != Place.ofPath [] path]
            rw [if_pos]
            exact bne_iff_ne.mpr fun he => hplace (he ▸ List.prefix_refl _)

/-! ### Creating -/

theorem createOne_entries (h : d.createOne parts = .ok d') :
    ∃ news, d'.entries = d.entries ++ news := by
  rw [createOne] at h
  split at h
  · cases h
  · split at h
    · cases h
    · obtain ⟨place, -, h⟩ := bind_eq_ok.mp h
      split at h
      · cases h
      · split at h
        · cases h
        · split at h
          · cases h
          · cases h
            exact ⟨_, rfl⟩

/-- Creating a directory and its parents adds entries. -/
theorem createReversed_entries : ∀ (parts : List String) (d : Disk),
    ∃ news, (createReversed parts d).2.entries = d.entries ++ news
  | [], d => ⟨[], (List.append_nil _).symm⟩
  | last :: init, d => by
    obtain ⟨news, hnews⟩ := createReversed_entries init d
    have hsame : ∃ news : List (Place × DiskEntry), d.entries = d.entries ++ news :=
      ⟨[], (List.append_nil _).symm⟩
    rw [createReversed]
    split
    case h_1 d' hone => exact createOne_entries hone
    case h_3 => exact hsame
    case h_2 =>
      -- the parents come first, then the directory is tried again
      split
      case h_1 f d' hinit =>
        rw [hinit] at hnews
        exact ⟨news, hnews⟩
      case h_2 d' hinit =>
        rw [hinit] at hnews
        split
        case h_1 d'' hone =>
          obtain ⟨more, hmore⟩ := createOne_entries hone
          refine ⟨news ++ more, ?_⟩
          rw [hmore, ← List.append_assoc]
          exact congrArg (· ++ more) hnews
        case h_2 | h_3 => exact ⟨news, hnews⟩

/-- What is there stays when a directory is created. -/
theorem kept_createDirectory {path : String} {e : DiskEntry} (h : d.entries.lookup place = some e) :
    (d.createDirectory path).2.entries.lookup place = some e := by
  rw [createDirectory]
  split
  · exact h
  · obtain ⟨news, hnews⟩ := createReversed_entries (components path).reverse d
    rw [hnews, List.lookup_append, h]
    rfl

/-! ### Writing -/

theorem lookup_setEntry (d : Disk) (place there : Place) (e : DiskEntry) :
    (d.setEntry place e).entries.lookup there =
      if there = place then some e else d.entries.lookup there := by
  rw [setEntry]
  split
  case isTrue hsome =>
    have hreplaced : ∀ f : Place × DiskEntry, (if f.1 = place then (f.1, e) else (f.1, f.2)) =
        (f.1, if f.1 = place then e else f.2) := by
      intro f
      split <;> rfl
    have hentries := congrArg (List.lookup there)
      (List.map_congr_left (l := d.entries) fun f _ => hreplaced f)
    refine hentries.trans ?_
    rw [Assoc.lookup_mapValues fun p old => if p = place then e else old]
    split
    case isTrue ht =>
      obtain ⟨old, hold⟩ := Option.isSome_iff_exists.mp hsome
      rw [ht, hold]
      rfl
    case isFalse => exact Option.map_id'
  case isFalse hnone =>
    rw [List.lookup_append]
    split
    case isTrue ht =>
      rw [ht, Option.not_isSome_iff_eq_none.mp hnone]
      simp
    case isFalse ht =>
      have hne : (there == place) = false := beq_eq_false_iff_ne.mpr ht
      rw [List.lookup_cons, hne, List.lookup_nil, Option.or_none]

theorem writeFile_ok {path content : String} (h : d.writeFile path content = .ok d') :
    d' = d.setEntry (Place.ofPath [] path) (.file content) := by
  have hwalk : Place.walk [] ((pieces path).filter (· != "")) = Place.ofPath [] path := by
    rw [← walk_pieces]
    exact Place.walk_filter (fun piece hp => .inl (by simpa using hp)) _ _
  have hparts : ∀ part ∈ (pieces path).filter (· != ""), part ≠ "" :=
    fun part hp => by simpa using (List.mem_filter.mp hp).2
  rw [writeFile] at h
  generalize (pieces path).filter (· != "") = parts at hwalk hparts h
  split at h
  · cases h
  · split at h
    · cases h
    · split at h
      · cases h
      case h_2 last hlast =>
        obtain ⟨start, hstart, h⟩ := bind_eq_ok.mp h
        split at h
        · cases h
        case isFalse hplain =>
          have hinit := follow_ok (fun p hp => hparts p (List.dropLast_subset _ hp)) hstart
          have hplace : start ++ [last] = Place.ofPath [] path := by
            have hlast' := List.dropLast_append_getLast? last hlast
            rw [← hwalk, ← hlast', Place.walk_append, ← hinit]
            simp only [Bool.or_eq_true, decide_eq_true_eq, not_or] at hplain
            have hpart := hparts last (List.mem_of_getLast? hlast)
            simp [Place.walk, Place.step, hpart, hplain.1.1, hplain.1.2]
          split at h
          · cases h
          · split at h <;> cases h
            rw [hplace]

/-- A file is written at the place its path leads to, or nothing changes. -/
theorem write_cases (path content : String) (d : Disk) :
    d.write path content = (.done, d.setEntry (Place.ofPath [] path) (.file content)) ∨
      (d.write path content).1 ≠ .done ∧ (d.write path content).2 = d := by
  rw [write]
  split
  · exact .inr ⟨WriteOutcome.noConfusion, rfl⟩
  · split
    case h_1 d' hfile => exact .inl (by rw [writeFile_ok hfile])
    case h_2 => exact .inr ⟨WriteOutcome.noConfusion, rfl⟩

end Disk

/-! ### The build -/

namespace Action

theorem request_write {σ : Type} (s : Storage σ) (a : Artifact) (state : σ) :
    ((Action.write a).request s state).2 = (s.write a.path a.content state).2 := by
  rw [request]
  rcases s.write a.path a.content state with ⟨outcome, state'⟩
  cases outcome <;> rfl

/-- The action does not remove or write what is at a place. -/
def Spares (place : Place) : Action → Prop
  | .deleteDirectory path => ¬ Place.ofPath [] path <+: place
  | .createDirectory _    => True
  | .write a              => Place.ofPath [] a.path ≠ place

/-- **An action keeps the entries that it spares.** -/
theorem kept_request {a : Action} {d : Disk} {place : Place} {e : DiskEntry}
    (hplace : a.Spares place) (h : d.entries.lookup place = some e) :
    (a.request Disk.storage d).2.entries.lookup place = some e := by
  cases a with
  | deleteDirectory path => exact (Disk.kept_deleteDirectory hplace).trans h
  | createDirectory path => exact Disk.kept_createDirectory h
  | write a =>
    have hstate : ((Action.write a).request Disk.storage d).2 = (d.write a.path a.content).2 :=
      request_write Disk.storage a d
    rw [hstate]
    rcases Disk.write_cases a.path a.content d with hwrite | ⟨-, hwrite⟩
    · rw [hwrite, Disk.lookup_setEntry, if_neg (Ne.symm hplace), h]
    · rw [hwrite, h]

/-- An action spares what is not at or below its path. -/
theorem spares_of_not_prefix {a : Action} {place : Place}
    (h : ¬ Place.ofPath [] a.path <+: place) : a.Spares place := by
  cases a with
  | deleteDirectory path => exact h
  | createDirectory path => trivial
  | write a => exact fun he => h (he ▸ List.prefix_refl _)

variable {σ : Type} {s : Storage σ}

/-- What every action keeps, a run of them keeps. -/
theorem performAll_keeps {P : σ → Prop} : ∀ {plan : List Action} {state : σ},
    (∀ a ∈ plan, ∀ state, P state → P (a.request s state).2) → P state →
      P (performAll s plan state).2
  | [], _, _, h => h
  | a :: as, state, hall, h => by
    have hone := hall a (.head _) state h
    rw [performAll, perform]
    rcases hrequest : a.request s state with ⟨answer, state'⟩
    rw [hrequest] at hone
    cases answer with
    | error e => exact hone
    | ok => exact performAll_keeps (fun b hb => hall b (.tail _ hb)) hone

end Action

namespace Job

variable {σ : Type} {j : Job} {s : Storage σ}

/-- What choosing a directory and every action of the plan keep, a build keeps. -/
theorem run_keeps {P : σ → Prop} {state : σ} (hdir : P (j.outputDir s state).2)
    (hplan : ∀ dir, (j.outputDir s state).1 = .ok (some dir) →
      List.Forall₂ j.Generates j.files j.generated.scripts →
        ∀ a ∈ j.plan dir, ∀ state, P state → P (a.request s state).2)
    (h : P state) : P (j.run s state).2 := by
  rw [run]
  cases j.obstacle? with
  | some f => exact h
  | none =>
    rcases hchosen : j.outputDir s state with ⟨answer, state'⟩
    rw [hchosen] at hdir hplan
    cases answer with
    | error e => exact hdir
    | ok chosen =>
      cases chosen with
      | none => exact hdir
      | some dir =>
        dsimp only
        rw [runIn]
        rcases @generated_cases j with ⟨hscripts, herrors, hbroken⟩ | ⟨-, hsaid⟩
        · simp only [hbroken, herrors]
          exact Action.performAll_keeps (hplan dir rfl hscripts) hdir
        · cases hbroken : j.generated.broken with
          | some e => exact hdir
          | none =>
            cases herrors : j.generated.errors with
            | cons e es => exact hdir
            | nil => exact absurd hsaid (by simp [hbroken, herrors])

end Job

end VisualScript
