import VisualScript.Proofs.Containment

/-!
# Proofs — Collisions

When two files of a mod end up in one.  Files of different kinds have different extensions, except
that weapons and token tables share one; so files of different kinds have different paths, and two
files of one kind have the same path exactly if their names become the same (`Job.NamesApart`).  Two
paths may still lead to one place through `..`; the last name on the way keeps the extension, so
that happens within a kind, or between a weapon and a token table, only (`Job.PlacesApart`).

* `Job.nodup_map_fileNames`: names that differ in their extension need not be compared.
* `Job.files_apart_iff`: the files a build reports have different paths exactly if the names are
  apart, and different places exactly if the places are; then no content is lost.
-/

namespace VisualScript

/-! ### Telling names apart -/

theorem nodup_map_congr {α β γ : Type} {f : α → β} {g : α → γ} {l : List α}
    (h : ∀ a ∈ l, ∀ b ∈ l, f a = f b ↔ g a = g b) : (l.map f).Nodup ↔ (l.map g).Nodup := by
  rw [List.Nodup, List.Nodup, List.pairwise_map, List.pairwise_map]
  exact List.Pairwise.iff_of_mem fun ha hb => not_congr (h _ ha _ hb)

/-- Groups of names with different tags: if equal keys mean equal tags, only names of one group can
have the same key. -/
theorem nodup_map_groups {τ κ : Type} {tag : String → τ} {key : String → κ}
    {groups : List (τ × List String)} (htags : (groups.map Prod.fst).Nodup)
    (hnames : ∀ g ∈ groups, ∀ name ∈ g.2, tag name = g.1)
    (hkey : ∀ a ∈ groups.flatMap Prod.snd, ∀ b ∈ groups.flatMap Prod.snd,
      key a = key b → tag a = tag b) :
    ((groups.flatMap Prod.snd).map key).Nodup ↔ ∀ g ∈ groups, (g.2.map key).Nodup := by
  rw [List.map_flatMap, List.nodup_flatMap]
  refine and_iff_left ((List.pairwise_map.mp htags).imp_of_mem fun {g g'} hg hg' hne => ?_)
  intro k hk hk'
  obtain ⟨a, ha, rfl⟩ := List.mem_map.mp hk
  obtain ⟨b, hb, he⟩ := List.mem_map.mp hk'
  have htag := hkey a (List.mem_flatMap.mpr ⟨g, hg, ha⟩) b (List.mem_flatMap.mpr ⟨g', hg', hb⟩)
    he.symm
  exact hne (by rw [← hnames g hg a ha, htag, hnames g' hg' b hb])

/-- The last two characters of a text, the last one first. -/
def ending (s : String) : List Char := s.toList.reverse.take 2

/-- The extensions of the files of a mod. -/
def extensions : List String := [".nut", ".gnut", ".txt", ".res", ".menu", ".rson", ".vdf"]

theorem ending_of_suffix {ext s : String} (hext : ext ∈ extensions) (h : ext.toList <:+ s.toList) :
    ending s = ending ext := by
  have hlength : ∀ ext ∈ extensions, 2 ≤ ext.toList.reverse.length := by decide
  obtain ⟨front, hfront⟩ := h
  rw [ending, ending, ← hfront, List.reverse_append,
    List.take_append_of_le_length (hlength ext hext)]

theorem suffix_append_text {ext name : String} (front : String) (h : ext.toList <:+ name.toList) :
    ext.toList <:+ (front ++ name).toList := by
  rw [String.toList_append]
  exact h.trans (List.suffix_append _ _)

theorem append_text_inj (front : String) {a b : String} : front ++ a = front ++ b ↔ a = b := by
  rw [← String.toList_inj, String.toList_append, String.toList_append, List.append_cancel_left_eq,
    String.toList_inj]

/-- The last piece of a path has its extension. -/
theorem Disk.pieces_of_suffix {ext name : String} (hext : ext ∈ extensions)
    (h : ext.toList <:+ name.toList) :
    ∃ init last, pieces name = init ++ [last] ∧ ext.toList <:+ last.toList := by
  by_cases hslash : '/' ∈ name.toList
  · obtain ⟨front, last, hlast, rfl⟩ := exists_last hslash
    refine ⟨pieces front, last, by rw [pieces_join, pieces_of_no_slash hlast], ?_⟩
    have hplain : ∀ ext ∈ extensions, '/' ∉ ext.toList := by decide
    have hend : '/' :: last.toList <:+ (front ++ "/" ++ last).toList := ⟨front.toList, by simp⟩
    rcases List.suffix_or_suffix_of_suffix h hend with hs | hs
    · exact (List.suffix_cons_iff.mp hs).resolve_left fun he => hplain ext hext (he ▸ .head _)
    · exact absurd (hs.subset (.head _)) (hplain ext hext)
  · exact ⟨[], name, pieces_of_no_slash hslash, h⟩

/-- The last name on the way to a file is that of the file. -/
theorem Place.walk_of_suffix {ext name : String} (hext : ext ∈ extensions)
    (h : ext.toList <:+ name.toList) (start : Place) :
    ∃ place last, walk start (Disk.pieces name) = place ++ [last] ∧ ending last = ending name := by
  obtain ⟨init, last, hpieces, hlast⟩ := Disk.pieces_of_suffix hext h
  have hname : last ∉ ["", ".", ".."] := by
    intro hm
    have hshort : ∀ s ∈ ["", ".", ".."], s.toList.length ≤ 2 := by decide
    have hlong : ∀ ext ∈ extensions, 4 ≤ ext.toList.length := by decide
    have hle := hlast.length_le
    have := hshort last hm
    have := hlong ext hext
    omega
  simp only [List.mem_cons, List.not_mem_nil, or_false, not_or] at hname
  refine ⟨walk start init, last, ?_, ?_⟩
  · rw [hpieces, walk_append]
    simp [walk, step, hname]
  · rw [ending_of_suffix hext hlast, ending_of_suffix hext h]

/-! ### File names -/

theorem suffix_withExtension (name ext : String) :
    ext.toList <:+ (withExtension name ext).toList := by
  rw [withExtension]
  split
  case isTrue h => exact List.isSuffixOf_iff_suffix.mp h
  case isFalse => exact suffix_append_text name (List.suffix_refl _)

theorem suffix_scriptFileName {s : Settings} (hs : s.scriptExtension ∈ [".nut", ".gnut"])
    (name : String) : ∃ ext ∈ [".nut", ".gnut"], ext.toList <:+ (scriptFileName s name).toList := by
  rw [scriptFileName]
  split
  case isTrue h =>
    obtain ⟨ext, hext, h⟩ := List.any_eq_true.mp h
    exact ⟨ext, hext, List.isSuffixOf_iff_suffix.mp h⟩
  case isFalse => exact ⟨_, hs, suffix_append_text name (List.suffix_refl _)⟩

theorem append_cons_inj {c : Char} : ∀ {xs ys as bs : List Char}, c ∉ xs → c ∉ ys →
    xs ++ c :: as = ys ++ c :: bs → xs = ys ∧ as = bs
  | [], [], _, _, _, _, h => ⟨rfl, (List.cons.inj h).2⟩
  | [], y :: ys, _, _, _, hy, h => absurd ((List.cons.inj h).1 ▸ .head _) hy
  | x :: xs, [], _, _, hx, _, h => absurd ((List.cons.inj h).1 ▸ .head _) hx
  | x :: xs, y :: ys, as, bs, hx, hy, h => by
    obtain ⟨rfl, htail⟩ := List.cons.inj h
    obtain ⟨rfl, hrest⟩ :=
      append_cons_inj (fun hm => hx (.tail _ hm)) (fun hm => hy (.tail _ hm)) htail
    exact ⟨rfl, hrest⟩

/-- The file of a token table is named for its base name and its language. -/
theorem LocalizationFile.fileName_inj {f g : LocalizationFile} (hf : f.language ∈ languages)
    (hg : g.language ∈ languages) :
    f.fileName = g.fileName ↔ (f.baseName, f.language) = (g.baseName, g.language) := by
  constructor
  · intro h
    have hplain : ∀ l ∈ languages, '_' ∉ l.toList := by decide
    have hreverse : ∀ f : LocalizationFile, f.fileName.toList.reverse =
        ".txt".toList.reverse ++
          (f.language.toList.reverse ++ '_' :: f.baseName.toList.reverse) := by
      intro f
      simp [fileName]
    have hcut := congrArg (fun s : String => s.toList.reverse) h
    simp only [hreverse, List.append_cancel_left_eq] at hcut
    -- a base name may hold underscores, a language does not
    obtain ⟨hlanguage, hbase⟩ := append_cons_inj (by simpa using hplain _ hf)
      (by simpa using hplain _ hg) hcut
    rw [String.toList_inj.mp (List.reverse_inj.mp hlanguage),
      String.toList_inj.mp (List.reverse_inj.mp hbase)]
  · intro h
    rw [fileName, fileName, (Prod.mk.inj h).1, (Prod.mk.inj h).2]

namespace Job

variable {j : Job}

def scriptNames (j : Job) : List String :=
  j.files.map fun f => "scripts/vscripts/" ++ scriptFileName j.settings f.name

def weaponNames (j : Job) : List String :=
  j.project.weapons.map fun f => "scripts/weapons/" ++ withExtension f.name ".txt"

/-- The files of the interface that are of one kind. -/
def interfacesOf (j : Job) (kind : InterfaceKind) : List InterfaceFile :=
  j.project.interfaces.filter (·.kind = kind)

def tableNames (j : Job) : List String :=
  j.project.localizations.map fun f => "resource/localization/" ++ f.fileName

/-- The files of a mod by the ending of their names. -/
def groups (j : Job) : List (List Char × List String) :=
  [(ending ".nut", j.scriptNames),
   (ending ".txt", j.weaponNames ++ j.tableNames),
   (ending ".res", (j.interfacesOf .res).map (·.fileName)),
   (ending ".menu", (j.interfacesOf .menu).map (·.fileName)),
   (ending ".rson", ["scripts/vscripts/scripts.rson"]),
   (ending ".vdf", ["mod.vdf"])]

theorem fileNames_perm (j : Job) : j.fileNames.Perm (j.groups.flatMap Prod.snd) := by
  have hinterfaces : j.project.interfaces.Perm (j.interfacesOf .res ++ j.interfacesOf .menu) := by
    have hsplit := List.filter_append_perm (fun f : InterfaceFile => decide (f.kind = .res))
      j.project.interfaces
    have hother : (j.project.interfaces.filter fun f => !decide (f.kind = .res)) =
        j.interfacesOf .menu := by
      refine List.filter_congr fun f _ => ?_
      cases f.kind <;> rfl
    rw [hother] at hsplit
    exact hsplit.symm
  have hnames := hinterfaces.map (·.fileName)
  rw [List.map_append] at hnames
  have hfiles : j.fileNames = j.scriptNames ++ j.weaponNames ++
      (j.project.interfaces.map (·.fileName) ++ j.tableNames) ++
        ["scripts/vscripts/scripts.rson", "mod.vdf"] := by
    rw [fileNames, ← List.append_assoc]
    rfl
  have hgroups : j.groups.flatMap Prod.snd = j.scriptNames ++ j.weaponNames ++ (j.tableNames ++
      ((j.interfacesOf .res).map (·.fileName) ++ (j.interfacesOf .menu).map (·.fileName))) ++
        ["scripts/vscripts/scripts.rson", "mod.vdf"] := by
    simp [groups]
  rw [hfiles, hgroups]
  refine List.Perm.append_right _ (List.Perm.append_left _ (List.perm_append_comm.trans ?_))
  exact List.Perm.append_left _ hnames

section

variable (hext : j.settings.scriptExtension ∈ [".nut", ".gnut"])

include hext

/-- The names of a group have an extension with its ending. -/
theorem exists_extension {g : List Char × List String} (hg : g ∈ j.groups) {name : String}
    (h : name ∈ g.2) : ∃ ext ∈ extensions, ext.toList <:+ name.toList ∧ ending ext = g.1 := by
  simp only [groups, List.mem_cons, List.not_mem_nil, or_false] at hg
  rcases hg with rfl | rfl | rfl | rfl | rfl | rfl
  · obtain ⟨f, -, rfl⟩ := List.mem_map.mp h
    obtain ⟨ext, hmem, hsuffix⟩ := suffix_scriptFileName hext f.name
    have hboth : ∀ ext ∈ [".nut", ".gnut"], ext ∈ extensions ∧ ending ext = ending ".nut" := by
      decide
    exact ⟨ext, (hboth ext hmem).1, suffix_append_text _ hsuffix, (hboth ext hmem).2⟩
  · refine ⟨".txt", by decide, ?_, rfl⟩
    rcases List.mem_append.mp h with h | h
    · obtain ⟨f, -, rfl⟩ := List.mem_map.mp h
      exact suffix_append_text _ (suffix_withExtension f.name ".txt")
    · obtain ⟨f, -, rfl⟩ := List.mem_map.mp h
      exact suffix_append_text _ (suffix_append_text _ (List.suffix_refl _))
  · obtain ⟨f, hf, rfl⟩ := List.mem_map.mp h
    have hkind : f.kind = .res := by simpa using (List.mem_filter.mp hf).2
    refine ⟨".res", by decide, ?_, rfl⟩
    rw [InterfaceFile.fileName, hkind]
    exact suffix_append_text _ (suffix_withExtension f.name ".res")
  · obtain ⟨f, hf, rfl⟩ := List.mem_map.mp h
    have hkind : f.kind = .menu := by simpa using (List.mem_filter.mp hf).2
    refine ⟨".menu", by decide, ?_, rfl⟩
    rw [InterfaceFile.fileName, hkind]
    exact suffix_append_text _ (suffix_withExtension f.name ".menu")
  · rw [List.mem_singleton.mp h]
    exact ⟨".rson", by decide, by decide, rfl⟩
  · rw [List.mem_singleton.mp h]
    exact ⟨".vdf", by decide, by decide, rfl⟩

theorem extension_of_mem {name : String} (h : name ∈ j.fileNames) :
    ∃ ext ∈ extensions, ext.toList <:+ name.toList := by
  obtain ⟨g, hg, hname⟩ := List.mem_flatMap.mp (j.fileNames_perm.mem_iff.mp h)
  obtain ⟨ext, hmem, hsuffix, -⟩ := exists_extension hext hg hname
  exact ⟨ext, hmem, hsuffix⟩

/-- **Only names with one ending have to be compared.** -/
theorem nodup_map_fileNames {κ : Type} {key : String → κ}
    (hkey : ∀ a ∈ j.fileNames, ∀ b ∈ j.fileNames, key a = key b → ending a = ending b) :
    (j.fileNames.map key).Nodup ↔ (j.scriptNames.map key).Nodup ∧
      ((j.weaponNames ++ j.tableNames).map key).Nodup ∧
      (((j.interfacesOf .res).map (·.fileName)).map key).Nodup ∧
      (((j.interfacesOf .menu).map (·.fileName)).map key).Nodup := by
  have hmem : ∀ a, a ∈ j.groups.flatMap Prod.snd → a ∈ j.fileNames :=
    fun a ha => j.fileNames_perm.mem_iff.mpr ha
  have htags : (j.groups.map Prod.fst).Nodup := by
    simp only [groups, List.map_cons, List.map_nil]
    decide
  rw [(j.fileNames_perm.map key).nodup_iff, @nodup_map_groups _ _ ending key _ htags ?_
    fun a ha b hb => hkey a (hmem a ha) b (hmem b hb)]
  · simp [groups]
  · intro g hg name hname
    obtain ⟨ext, hmem, hsuffix, htag⟩ := exists_extension hext hg hname
    rw [ending_of_suffix hmem hsuffix, htag]

/-- No two files of one kind have names that become the same. -/
structure NamesApart (j : Job) : Prop where
  scripts : (j.files.map fun f => scriptFileName j.settings f.name).Nodup
  weapons : (j.project.weapons.map fun f => withExtension f.name ".txt").Nodup
  layouts : ((j.interfacesOf .res).map fun f => withExtension f.name ".res").Nodup
  menus   : ((j.interfacesOf .menu).map fun f => withExtension f.name ".menu").Nodup
  tables  : (j.project.localizations.map fun f => (f.baseName, f.language)).Nodup

/-- No two files of one kind, and no weapon and token table, are in the same place below the
folder. -/
structure PlacesApart (j : Job) (root : Place) : Prop where
  scripts : (j.scriptNames.map fun name => root.walk (Disk.pieces name)).Nodup
  tables  : ((j.weaponNames ++ j.tableNames).map fun name => root.walk (Disk.pieces name)).Nodup
  layouts : (((j.interfacesOf .res).map (·.fileName)).map fun name =>
    root.walk (Disk.pieces name)).Nodup
  menus   : (((j.interfacesOf .menu).map (·.fileName)).map fun name =>
    root.walk (Disk.pieces name)).Nodup

theorem nodup_fileNames
    (hlanguage : ∀ f ∈ j.project.localizations, f.language ∈ LocalizationFile.languages) :
    j.fileNames.Nodup ↔ j.NamesApart := by
  have hscripts : j.scriptNames.Nodup ↔
      (j.files.map fun f => scriptFileName j.settings f.name).Nodup :=
    nodup_map_congr fun _ _ _ _ => append_text_inj _
  have hweapons : j.weaponNames.Nodup ↔
      (j.project.weapons.map fun f => withExtension f.name ".txt").Nodup :=
    nodup_map_congr fun _ _ _ _ => append_text_inj _
  have htables : j.tableNames.Nodup ↔
      (j.project.localizations.map fun f => (f.baseName, f.language)).Nodup :=
    nodup_map_congr fun f hf g hg => (append_text_inj _).trans
      (LocalizationFile.fileName_inj (hlanguage f hf) (hlanguage g hg))
  have hkind : ∀ {kind} {f : InterfaceFile}, f ∈ j.interfacesOf kind → f.kind = kind :=
    fun hf => by simpa using (List.mem_filter.mp hf).2
  have hlayouts : ((j.interfacesOf .res).map (·.fileName)).Nodup ↔
      ((j.interfacesOf .res).map fun f => withExtension f.name ".res").Nodup := by
    refine nodup_map_congr fun f hf g hg => ?_
    rw [InterfaceFile.fileName, InterfaceFile.fileName, hkind hf, hkind hg]
    exact append_text_inj _
  have hmenus : ((j.interfacesOf .menu).map (·.fileName)).Nodup ↔
      ((j.interfacesOf .menu).map fun f => withExtension f.name ".menu").Nodup := by
    refine nodup_map_congr fun f hf g hg => ?_
    rw [InterfaceFile.fileName, InterfaceFile.fileName, hkind hf, hkind hg]
    exact append_text_inj _
  have happart : ∀ a ∈ j.weaponNames, ∀ b ∈ j.tableNames, a ≠ b := by
    intro a ha b hb he
    obtain ⟨f, -, rfl⟩ := List.mem_map.mp ha
    obtain ⟨g, -, rfl⟩ := List.mem_map.mp hb
    have hhead := congrArg (fun s : String => s.toList.head?) he
    simp at hhead
  have hall := @nodup_map_fileNames j hext _ id fun a _ b _ he => congrArg ending he
  simp only [List.map_id] at hall
  rw [hall, List.nodup_append, hscripts, hweapons, htables, hlayouts, hmenus]
  constructor
  · rintro ⟨h₁, ⟨h₂, h₅, -⟩, h₃, h₄⟩
    exact ⟨h₁, h₂, h₃, h₄, h₅⟩
  · rintro ⟨h₁, h₂, h₃, h₄, h₅⟩
    exact ⟨h₁, ⟨h₂, h₅, happart⟩, h₃, h₄⟩

theorem nodup_places (root : Place) :
    (j.fileNames.map fun name => root.walk (Disk.pieces name)).Nodup ↔ j.PlacesApart root := by
  rw [nodup_map_fileNames hext fun a ha b hb he => ?_]
  · exact ⟨fun ⟨h₁, h₂, h₃, h₄⟩ => ⟨h₁, h₂, h₃, h₄⟩, fun ⟨h₁, h₂, h₃, h₄⟩ => ⟨h₁, h₂, h₃, h₄⟩⟩
  · obtain ⟨ext, hmem, hsuffix⟩ := extension_of_mem hext ha
    obtain ⟨ext', hmem', hsuffix'⟩ := extension_of_mem hext hb
    obtain ⟨place, last, hwalk, hlast⟩ := Place.walk_of_suffix hmem hsuffix root
    obtain ⟨place', last', hwalk', hlast'⟩ := Place.walk_of_suffix hmem' hsuffix' root
    rw [hwalk, hwalk'] at he
    rw [← hlast, ← hlast', (List.append_singleton_inj.mp he).2]

end

/-- The names of the files hold no empty pieces and no dots that lead elsewhere. -/
def Plain (j : Job) : Prop :=
  ∀ name ∈ j.fileNames, ∀ piece ∈ Disk.pieces name, piece ≠ "" ∧ piece ≠ "." ∧ piece ≠ ".."

/-- Plain names lead to different places if they are different. -/
theorem nodup_places_of_plain (root : Place) (hplain : j.Plain) :
    (j.fileNames.map fun name => root.walk (Disk.pieces name)).Nodup ↔ j.fileNames.Nodup := by
  have hsame := @nodup_map_congr _ _ _ (fun name => root.walk (Disk.pieces name)) id j.fileNames
    fun a ha b hb => ?_
  · rwa [List.map_id] at hsame
  · rw [Place.walk_plain root (hplain a ha), Place.walk_plain root (hplain b hb),
      List.append_cancel_left_eq]
    exact Disk.pieces_injective.eq_iff

end Job

/-! ### The build -/

namespace Action

variable {σ : Type} {s : Storage σ} {state : σ}

theorem performAll_cons {a : Action} {as : List Action}
    (h : (performAll s (a :: as) state).1.2 = none) :
    ∃ state', a.request s state = (.ok (), state') ∧ (performAll s as state').1.2 = none ∧
      (performAll s (a :: as) state).1.1 = a.written?.toList ++ (performAll s as state').1.1 ∧
      (performAll s (a :: as) state).2 = (performAll s as state').2 := by
  rw [performAll, perform] at h
  rw [performAll, perform]
  rcases hrequest : a.request s state with ⟨answer, state'⟩
  rw [hrequest] at h
  cases answer with
  | error e => cases h
  | ok => exact ⟨state', rfl, h, rfl, rfl⟩

theorem filterMap_written (a : Action) (as : List Action) :
    (a :: as).filterMap written? = a.written?.toList ++ as.filterMap written? := by
  cases a <;> rfl

theorem performAll_paths : ∀ {plan : List Action} {state : σ},
    (performAll s plan state).1.2 = none →
      (performAll s plan state).1.1 = plan.filterMap written?
  | [], _, _ => rfl
  | a :: as, state, h => by
    obtain ⟨state', -, hrest, hpaths, -⟩ := performAll_cons h
    rw [hpaths, filterMap_written, performAll_paths hrest]

theorem written_of_request {a : Artifact} {d d' : Disk}
    (h : (Action.write a).request Disk.storage d = (.ok (), d')) :
    d' = d.setEntry (Place.ofPath [] a.path) (.file a.content) := by
  rw [request] at h
  rcases Disk.write_cases a.path a.content d with hwrite | ⟨hnot, -⟩
  · have hstored : Disk.storage.write a.path a.content d = _ := hwrite
    rw [hstored] at h
    exact (Prod.mk.inj h).2.symm
  · rcases hwrite : Disk.storage.write a.path a.content d with ⟨outcome, d''⟩
    rw [hwrite] at h
    have hdone : outcome ≠ .done := by
      rintro rfl
      exact hnot (congrArg Prod.fst hwrite)
    cases outcome with
    | done => exact absurd rfl hdone
    | refused reason => cases h
    | broken e => cases h

/-- **Files in different places keep their contents**: what a run writes and does not delete is
there in the end. -/
theorem performAll_written {a : Artifact} : ∀ {plan : List Action} {d : Disk},
    (∀ path, .deleteDirectory path ∉ plan) →
    ((plan.filterMap written?).map (Place.ofPath [])).Nodup →
    (performAll Disk.storage plan d).1.2 = none → .write a ∈ plan →
      (performAll Disk.storage plan d).2.entries.lookup (Place.ofPath [] a.path) =
        some (.file a.content)
  | b :: bs, d, hkeep, hapart, hok, ha => by
    obtain ⟨d', hrequest, hrest, -, hrun⟩ := performAll_cons hok
    rw [filterMap_written, List.map_append, List.nodup_append] at hapart
    obtain ⟨-, hlater, hne⟩ := hapart
    rw [hrun]
    rcases List.mem_cons.mp ha with rfl | ha
    · refine performAll_keeps (P := fun d : Disk => d.entries.lookup (Place.ofPath [] a.path) =
        some (.file a.content)) (fun c hc d hd => ?_) ?_
      · refine kept_request ?_ hd
        cases c with
        | deleteDirectory path => exact absurd (.tail _ hc) (hkeep path)
        | createDirectory path => trivial
        | write x =>
          have hx : x.path ∈ bs.filterMap written? := List.mem_filterMap.mpr ⟨_, hc, rfl⟩
          exact fun he => hne _ (List.mem_singleton_self _) _ (List.mem_map_of_mem hx) he.symm
      · rw [written_of_request hrequest, Disk.lookup_setEntry, if_pos rfl]
    · exact performAll_written (fun path hm => hkeep path (.tail _ hm)) hlater hrest ha

end Action

theorem Plan.written?_of_nodup {a : Artifact} : ∀ {as : List Artifact},
    (as.map (·.path)).Nodup → a ∈ as → written? as a.path = some a.content
  | b :: as, h, ha => by
    obtain ⟨hnew, h⟩ := List.nodup_cons.mp h
    rw [written?_cons]
    rcases List.mem_cons.mp ha with rfl | ha
    · have hlast : written? as a.path = none :=
        written?_eq_none fun c hc he => hnew (List.mem_map.mpr ⟨c, hc, he⟩)
      rw [hlast, if_pos rfl]
      rfl
    · rw [written?_of_nodup h ha]
      rfl

namespace Job

variable {j : Job} {σ : Type} {s : Storage σ} {state : σ} {dir : String}

/-- A build that succeeds has performed its plan. -/
theorem performAll_of_success (h : (j.run s state).1.success = true) :
    ∃ dir, (j.outputDir s state).1 = .ok (some dir) ∧
      List.Forall₂ j.Generates j.files j.generated.scripts ∧ ∃ state',
        (Action.performAll s (j.plan dir) state').1.2 = none ∧
        (j.run s state).2 = (Action.performAll s (j.plan dir) state').2 ∧
        (j.run s state).1.filesCreated = (j.artifacts dir).map (·.path) := by
  obtain ⟨dir, hready⟩ := ready_of_success h
  obtain ⟨hscripts, hsuccess, hfiles, hstate⟩ := hready.performs
  have hnone := Option.isNone_iff_eq_none.mp (hsuccess.symm.trans h)
  refine ⟨dir, hready.dir, hscripts, _, hnone, hstate, ?_⟩
  rw [hfiles, Action.performAll_paths hnone, filterMap_plan]

theorem places_artifacts (hscripts : List.Forall₂ j.Generates j.files j.generated.scripts)
    (here : Place) : ((j.artifacts dir).map (·.path)).map (Place.ofPath here) =
      j.fileNames.map fun name =>
        (Place.ofPath here (j.layout dir).modDir).walk (Disk.pieces name) := by
  rw [paths_artifacts hscripts, List.map_map]
  refine List.map_congr_left fun name _ => ?_
  rw [Function.comp_apply, ofPath_file]

/-- In a memory store, names that are apart keep their contents. -/
theorem contents_written {m : MemoryStore} (hnames : j.fileNames.Nodup)
    (h : (j.run MemoryStore.storage m).1.success = true)
    (hdir : (j.outputDir MemoryStore.storage m).1 = .ok (some dir)) {a : Artifact}
    (ha : a ∈ j.artifacts dir) :
    (j.run MemoryStore.storage m).2.files.lookup a.path = some a.content := by
  obtain ⟨_, hchosen, hscripts, -⟩ := performAll_of_success h
  obtain ⟨_, hdir', -, hcontents⟩ := run_success h
  rw [hdir] at hchosen hdir'
  cases hchosen
  cases hdir'
  have hpaths : ((j.artifacts dir).map (·.path)).Nodup := by
    rw [paths_artifacts hscripts]
    exact hnames.map fun _ _ he => (append_text_inj _).mp he
  have hlookup := lookup_plan m.contents dir a.path (j := j)
  rw [← hcontents, if_pos (isBelow_of_mem_artifacts ha)] at hlookup
  exact hlookup.trans (Plan.written?_of_nodup hpaths ha)

/-- On a disk, files in different places keep their contents. -/
theorem entries_written {d : Disk} (h : (j.run Disk.storage d).1.success = true)
    (hdir : (j.outputDir Disk.storage d).1 = .ok (some dir))
    (hplaces : (((j.artifacts dir).map (·.path)).map (Place.ofPath [])).Nodup) {a : Artifact}
    (ha : a ∈ j.artifacts dir) :
    (j.run Disk.storage d).2.entries.lookup (Place.ofPath [] a.path) =
      some (.file a.content) := by
  obtain ⟨_, hchosen, -, d', hok, hstate, -⟩ := performAll_of_success h
  rw [hdir] at hchosen
  cases hchosen
  rw [plan_cons] at hok hstate
  obtain ⟨_, -, hrest, -, hrun⟩ := Action.performAll_cons hok
  rw [← filterMap_plan, plan_cons, List.filterMap_cons_none rfl] at hplaces
  rw [hstate, hrun]
  exact Action.performAll_written (j.not_delete_mem_tail dir) hplaces hrest (write_mem_tail ha)

/-- **The files of a build are apart exactly if their names are.**  A build that succeeds reports
different paths exactly if no two files of one kind have names that become the same, and different
places exactly if `..` leads no two files of one kind, or a weapon and a token table, to the same
place; for plain names the two are the same.  Files that are apart keep their contents: by path in a
memory store, by place on a disk. -/
theorem files_apart_iff (j : Job) (hext : j.settings.scriptExtension ∈ [".nut", ".gnut"])
    (hlanguage : ∀ f ∈ j.project.localizations, f.language ∈ LocalizationFile.languages) :
    (∀ (σ : Type) (s : Storage σ) (state : σ), (j.run s state).1.success = true →
      ((j.run s state).1.filesCreated.Nodup ↔ j.NamesApart) ∧
      ∃ dir, (j.outputDir s state).1 = .ok (some dir) ∧ ∀ here : Place,
        (((j.run s state).1.filesCreated.map (Place.ofPath here)).Nodup ↔
          j.PlacesApart (Place.ofPath here (j.layout dir).modDir)) ∧
        (j.Plain → (((j.run s state).1.filesCreated.map (Place.ofPath here)).Nodup ↔
          j.NamesApart))) ∧
    (∀ (m : MemoryStore) (dir : String), (j.run MemoryStore.storage m).1.success = true →
      (j.outputDir MemoryStore.storage m).1 = .ok (some dir) → j.NamesApart →
        ∀ a ∈ j.artifacts dir,
          (j.run MemoryStore.storage m).2.files.lookup a.path = some a.content) ∧
    (∀ (d : Disk) (dir : String), (j.run Disk.storage d).1.success = true →
      (j.outputDir Disk.storage d).1 = .ok (some dir) →
        j.PlacesApart (Place.ofPath [] (j.layout dir).modDir) → ∀ a ∈ j.artifacts dir,
          (j.run Disk.storage d).2.entries.lookup (Place.ofPath [] a.path) =
            some (.file a.content)) := by
  have hnames := nodup_fileNames hext hlanguage
  refine ⟨fun σ s state h => ?_, fun m dir h hdir hn a ha => ?_, fun d dir h hdir hp a ha => ?_⟩
  · obtain ⟨dir, hdir, hscripts, -, -, -, hfiles⟩ := performAll_of_success h
    rw [hfiles]
    refine ⟨?_, dir, hdir, fun here => ?_⟩
    · rw [← hnames, paths_artifacts hscripts]
      exact List.nodup_map_iff fun _ _ he => (append_text_inj _).mp he
    · rw [places_artifacts hscripts]
      refine ⟨nodup_places hext _, fun hplain => ?_⟩
      rw [nodup_places_of_plain _ hplain, hnames]
  · exact contents_written (hnames.mpr hn) h hdir ha
  · obtain ⟨_, hchosen, hscripts, -⟩ := performAll_of_success h
    refine entries_written h hdir ?_ ha
    rw [places_artifacts hscripts, nodup_places hext]
    exact hp

/-- A mod whose files have names that are close to one another. -/
def wardrobe : Job where
  catalog := .builtin
  settings := {}
  project :=
    { metadata := ⟨"Hats", "1.0.0", "", "", "", "", "0.1.0"⟩
      settings := { mod := some { name := "Hats", author := "Al" } }
      weapons :=
        [{ id := "a", name := "hat", content := "wool", createdAt := "", modifiedAt := "" },
         { id := "b", name := "./hat.nut", content := "silk", createdAt := "", modifiedAt := "" }]
      interfaces :=
        [{ id := "c", name := "hat", content := "rack", createdAt := "", modifiedAt := "" },
         { id := "d", name := "hat", kind := .menu, content := "hook", createdAt := ""
           modifiedAt := "" }]
      localizations := [{ id := "e", name := "hat.txt", createdAt := "", modifiedAt := "" }] }
  options := ⟨some "out", false⟩

/-- The names are apart, so every file has a path and a place of its own and keeps its content. -/
theorem files_apart_iff_wardrobe :
    wardrobe.settings.scriptExtension ∈ [".nut", ".gnut"] ∧
    (∀ f ∈ wardrobe.project.localizations, f.language ∈ LocalizationFile.languages) ∧
    (wardrobe.run Disk.storage {}).1.filesCreated.Nodup ∧
    ((wardrobe.run Disk.storage {}).1.filesCreated.map (Place.ofPath ["home"])).Nodup ∧
    (∀ a ∈ wardrobe.artifacts "out",
      (wardrobe.run MemoryStore.storage {}).2.files.lookup a.path = some a.content) ∧
    ∀ a ∈ wardrobe.artifacts "out",
      (wardrobe.run Disk.storage {}).2.entries.lookup (Place.ofPath [] a.path) =
        some (.file a.content) := by
  have hext : wardrobe.settings.scriptExtension ∈ [".nut", ".gnut"] := by decide
  have hlanguage : ∀ f ∈ wardrobe.project.localizations,
      f.language ∈ LocalizationFile.languages := by decide
  have hdisk : (wardrobe.run Disk.storage {}).1.success = true := by decide +kernel
  have hmemory : (wardrobe.run MemoryStore.storage {}).1.success = true := by decide +kernel
  have hnames : wardrobe.NamesApart :=
    ⟨by decide +kernel, by decide +kernel, by decide +kernel, by decide +kernel, by decide +kernel⟩
  have hplaces : ∀ root ∈ [["out", "Al-Hats"], ["home", "out", "Al-Hats"]],
      wardrobe.PlacesApart root := by
    intro root hroot
    simp only [List.mem_cons, List.not_mem_nil, or_false] at hroot
    rcases hroot with rfl | rfl
    · exact ⟨by decide +kernel, by decide +kernel, by decide +kernel, by decide +kernel⟩
    · exact ⟨by decide +kernel, by decide +kernel, by decide +kernel, by decide +kernel⟩
  obtain ⟨hpaths, hcontents, hentries⟩ := files_apart_iff wardrobe hext hlanguage
  obtain ⟨hpaths, dir, hdir, hhere⟩ := hpaths Disk Disk.storage {} hdisk
  cases hdir
  refine ⟨hext, hlanguage, hpaths.mpr hnames, (hhere ["home"]).1.mpr ?_,
    hcontents {} "out" hmemory rfl hnames, hentries {} "out" hdisk rfl ?_⟩
  · have hmod : Place.ofPath ["home"] (wardrobe.layout "out").modDir =
        ["home", "out", "Al-Hats"] := by decide +kernel
    rw [hmod]
    exact hplaces _ (by simp)
  · have hmod : Place.ofPath [] (wardrobe.layout "out").modDir = ["out", "Al-Hats"] := by
      decide +kernel
    rw [hmod]
    exact hplaces _ (by simp)

/-- A mod with a weapon that is named like its token table. -/
def mimic : Job :=
  { wardrobe with
    project :=
      { wardrobe.project with
        weapons :=
          [{ id := "a", name := "../../resource/localization/ui_english", content := "wool"
             createdAt := "", modifiedAt := "" }]
        interfaces := []
        localizations := [{ id := "e", name := "ui", createdAt := "", modifiedAt := "" }] } }

/-- Nothing stands against builds that write two files to one path, or to one place under two
paths; both succeed and lose a file. -/
theorem contents_lost :
    ((armory.run MemoryStore.storage cellar).1.success = true ∧
      ¬ (armory.run MemoryStore.storage cellar).1.filesCreated.Nodup ∧
      ∃ a ∈ armory.artifacts "out//",
        (armory.run MemoryStore.storage cellar).2.files.lookup a.path ≠ some a.content) ∧
    (mimic.run Disk.storage {}).1.success = true ∧
      (mimic.run Disk.storage {}).1.filesCreated.Nodup ∧
      ∃ a ∈ mimic.artifacts "out",
        (mimic.run Disk.storage {}).2.entries.lookup (Place.ofPath [] a.path) ≠
          some (.file a.content) := by
  refine ⟨by decide +kernel, ?_⟩
  decide +kernel

end Job

end VisualScript
