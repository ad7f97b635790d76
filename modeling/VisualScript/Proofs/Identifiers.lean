import VisualScript.Proofs.Embedding
import VisualScript.Proofs.Naming

/-!
# Proofs — Identifiers

Names in scripts are made from texts of any kind.  `Name.modulePrefix` and `Name.identifier` bring a
text into a shape, `Name.isCapitalized` and `Name.isWord`, and change no text that has the shape
already (`Name.Shapes`).  So each leaves its own results alone.

The second half rests on the tables of characters: no character of a word is white space, so
nothing is trimmed from a word.

The functions of entries and their parameters are named through these two.  Their names are words,
whatever the module is called and whatever the graph holds (`Script.emitted_names`).
-/

namespace VisualScript

/-! ### Tables of characters -/

namespace Text

/-- The code points of a table. -/
def points (rs : List (Nat × Nat)) : List Nat :=
  rs.flatMap fun r => List.range' r.1 (r.2 + 1 - r.1)

theorem mem_points {n : Nat} {rs : List (Nat × Nat)} (h : inRanges n rs = true) :
    n ∈ points rs := by
  induction rs with
  | nil => cases h
  | cons r rs ih =>
    rw [inRanges] at h
    split at h
    · cases h
    · rw [points, List.flatMap_cons, List.mem_append]
      refine ((Bool.or_eq_true _ _).mp h).imp (fun hhi => ?_) ih
      have hhi := of_decide_eq_true hhi
      exact List.mem_range'_1.mpr (by omega)

/-- What holds of all code points of a table holds of each of its characters. -/
theorem all_of_inRanges {p : Nat → Bool} {n : Nat} {rs : List (Nat × Nat)}
    (hall : (points rs).all p = true) (h : inRanges n rs = true) : p n = true :=
  List.all_eq_true.mp hall n (mem_points h)

theorem isBlank_of_isWordChar {c : Char} (h : isWordChar c = true) : isBlank c = false := by
  refine Bool.eq_false_iff.mpr fun hblank => ?_
  -- there are fewer blanks than letters, so it is the blanks that are looked up
  have hnone := all_of_inRanges (p := fun n => !isWordChar (.ofNat n)) (by decide +kernel) hblank
  rw [Char.ofNat_toNat, h] at hnone
  cases hnone

end Text

namespace Name

/-- What holds of every ASCII letter and digit holds of each. -/
theorem all_ascii {p : Char → Bool} {c : Char} (h : isAsciiAlphanumeric c = true)
    (hall : ((Text.points [(48, 57), (65, 90), (97, 122)]).all fun n => p (.ofNat n)) = true) :
    p c = true := by
  have hc : Text.inRanges c.toNat [(48, 57), (65, 90), (97, 122)] = true := by
    delta isAsciiAlphanumeric Char.isAlpha Char.isUpper Char.isLower Char.isDigit at h
    simp only [Bool.or_eq_true, Bool.and_eq_true, decide_eq_true_eq, UInt32.le_iff_toNat_le] at h
    simp only [Text.inRanges, Char.toNat]
    grind
  have hp := Text.all_of_inRanges (p := fun n => p (.ofNat n)) hall hc
  rwa [Char.ofNat_toNat] at hp

theorem isWordChar_of_ascii {c : Char} (h : isAsciiAlphanumeric c = true) :
    Text.isWordChar c = true :=
  all_ascii h (by decide +kernel)

theorem isUpper_or_isDigit_toUpper {c : Char} (h : isAsciiAlphanumeric c = true) :
    (c.toUpper.isUpper || c.toUpper.isDigit) = true :=
  all_ascii (p := fun c => c.toUpper.isUpper || c.toUpper.isDigit) h (by decide +kernel)

theorem ascii_of_isUpper {c : Char} (h : c.isUpper = true) : isAsciiAlphanumeric c = true :=
  (Bool.or_eq_true _ _).mpr (.inl ((Bool.or_eq_true _ _).mpr (.inl h)))

/-- A capital letter is no digit and stays as it is. -/
theorem of_isUpper {c : Char} (h : c.isUpper = true) :
    c.isDigit = false ∧ Text.isDigit c = false ∧ c.toUpper = c := by
  have hp := all_ascii (ascii_of_isUpper h)
    (p := fun c => !c.isUpper || (!c.isDigit && !Text.isDigit c && c.toUpper == c))
    (by decide +kernel)
  simpa [h, and_assoc] using hp

/-! ### Shapes -/

/-- A capital letter, then letters and digits, all of them ASCII. -/
def isCapitalized : List Char → Bool
  | []      => false
  | c :: cs => c.isUpper && cs.all isAsciiAlphanumeric

/-- Characters of words, at least one of them, and no digit in front. -/
def isWord : List Char → Bool
  | []      => false
  | c :: cs => !Text.isDigit c && (c :: cs).all Text.isWordChar

/-- The function brings every text into the shape, and changes no text that has it. -/
structure Shapes (f : String → String) (shape : List Char → Bool) : Prop where
  shaped : ∀ s, shape (f s).toList = true
  kept   : ∀ s, shape s.toList = true → f s = s

namespace Shapes

variable {f : String → String} {shape : List Char → Bool}

theorem idempotent (h : Shapes f shape) (s : String) : f (f s) = f s := h.kept _ (h.shaped s)

theorem eq_self_iff (h : Shapes f shape) (s : String) : f s = s ↔ shape s.toList = true :=
  ⟨fun hs => hs ▸ h.shaped s, h.kept s⟩

end Shapes

theorem isWord_append {cs ds : List Char} (hcs : isWord cs = true)
    (hds : ds.all Text.isWordChar = true) : isWord (cs ++ ds) = true := by
  cases cs with
  | nil => cases hcs
  | cons c cs =>
    rw [isWord, Bool.and_eq_true] at hcs
    rw [List.cons_append, isWord, Bool.and_eq_true, ← List.cons_append, List.all_append, hcs.2, hds]
    exact ⟨hcs.1, rfl⟩

theorem isWord_of_isCapitalized {cs : List Char} (h : isCapitalized cs = true) :
    isWord cs = true := by
  cases cs with
  | nil => cases h
  | cons c cs =>
    rw [isCapitalized, Bool.and_eq_true, List.all_eq_true] at h
    rw [isWord, (of_isUpper h.1).2.1, Bool.not_false, Bool.true_and, List.all_eq_true]
    exact List.forall_mem_cons.mpr
      ⟨isWordChar_of_ascii (ascii_of_isUpper h.1), fun a ha => isWordChar_of_ascii (h.2 a ha)⟩

/-! ### Prefixes -/

/-- What stands between the words is no letter and no digit. -/
theorem flatten_words (cs : List Char) : (words cs).flatten = cs.filter isAsciiAlphanumeric := by
  rw [words, List.flatten_filter_not_isEmpty]
  induction cs with
  | nil => rfl
  | cons c cs ih =>
    rw [List.foldr_cons, List.filter_cons, ← ih]
    generalize List.foldr _ _ cs = ws
    cases isAsciiAlphanumeric c <;> cases ws <;> rfl

/-- Letters and digits alone are one word. -/
theorem words_of_all {cs : List Char} (h : ∀ c ∈ cs, isAsciiAlphanumeric c = true) :
    words cs = [cs].filter (!·.isEmpty) := by
  rw [words]
  congr 1
  induction cs with
  | nil => rfl
  | cons c cs ih => rw [List.foldr_cons, ih fun a ha => h a (.tail _ ha), h c (.head _)]

theorem ascii_of_mem_capitalize {w : List Char} (hw : ∀ a ∈ w, isAsciiAlphanumeric a = true)
    {c : Char} (hc : c ∈ capitalize w) : isAsciiAlphanumeric c = true := by
  cases w with
  | nil => cases hc
  | cons a w =>
    rcases List.mem_cons.mp hc with rfl | hc
    · rcases (Bool.or_eq_true _ _).mp (isUpper_or_isDigit_toUpper (hw a (.head _))) with ha | ha
      · exact ascii_of_isUpper ha
      · exact (Bool.or_eq_true _ _).mpr (.inr ha)
    · exact hw c (.tail _ hc)

/-- Capitalised words hold letters and digits only and do not start with a small letter. -/
theorem flatMap_capitalize_words {cs ds : List Char} {d : Char}
    (h : (words cs).flatMap capitalize = d :: ds) :
    (d.isUpper || d.isDigit) = true ∧ ds.all isAsciiAlphanumeric = true := by
  have hascii : ∀ w ∈ words cs, ∀ a ∈ w, isAsciiAlphanumeric a = true := fun w hw a ha =>
    (List.mem_filter.mp (flatten_words cs ▸ List.mem_flatten.mpr ⟨w, hw, ha⟩)).2
  have hne : ∀ w ∈ words cs, w ≠ [] := fun w hw => by simpa using (List.mem_filter.mp hw).2
  cases hws : words cs with
  | nil => rw [hws] at h; cases h
  | cons w ws =>
    rw [hws] at h hascii hne
    obtain ⟨a, w, rfl⟩ := List.exists_cons_of_ne_nil (hne w (.head _))
    obtain ⟨rfl, rfl⟩ := List.cons.inj h
    refine ⟨isUpper_or_isDigit_toUpper (hascii _ (.head _) a (.head _)), ?_⟩
    refine List.all_eq_true.mpr fun b hb => ?_
    rcases List.mem_append.mp hb with hb | hb
    · exact hascii _ (.head _) b (.tail _ hb)
    · obtain ⟨v, hv, hb⟩ := List.mem_flatMap.mp hb
      exact ascii_of_mem_capitalize (hascii v (.tail _ hv)) hb

theorem modulePrefix_shapes : Shapes modulePrefix isCapitalized where
  shaped s := by
    rw [modulePrefix]
    split
    · rfl
    · next d ds hd =>
      obtain ⟨hfirst, hrest⟩ := flatMap_capitalize_words hd
      rw [String.toList_ofList]
      split
      · next hdigit =>
        have hd : isAsciiAlphanumeric d = true := by rw [isAsciiAlphanumeric, hdigit, Bool.or_true]
        show (d :: ds).all isAsciiAlphanumeric = true
        rw [List.all_cons, hd, hrest, Bool.and_self]
      · next hdigit =>
        rw [Bool.eq_false_iff.mpr hdigit, Bool.or_false] at hfirst
        rw [isCapitalized, hfirst, hrest, Bool.and_self]
  kept s h := by
    cases hs : s.toList with
    | nil => rw [hs] at h; cases h
    | cons c cs =>
      rw [hs, isCapitalized, Bool.and_eq_true, List.all_eq_true] at h
      obtain ⟨hdigit, -, hupper⟩ := of_isUpper h.1
      have hascii : ∀ a ∈ c :: cs, isAsciiAlphanumeric a = true :=
        List.forall_mem_cons.mpr ⟨ascii_of_isUpper h.1, h.2⟩
      have hwords : (words s.toList).flatMap capitalize = c :: cs := by
        rw [hs, words_of_all hascii]
        simp [capitalize, hupper]
      rw [modulePrefix, hwords]
      simp only [hdigit, Bool.false_eq_true, if_false]
      rw [← hs, String.ofList_toList]

/-! ### Identifiers -/

theorem identifier_shapes : Shapes identifier isWord where
  shaped s := by
    have hall : ∀ c ∈ (Text.trim s).toList.map fun c => if Text.isWordChar c then c else '_',
        Text.isWordChar c = true := by
      simp only [List.forall_mem_map]
      intro c _
      split
      · assumption
      · rfl
    rw [identifier]
    split
    · rfl
    · next c cs hcs =>
      rw [hcs, ← List.all_eq_true] at hall
      rw [String.toList_ofList]
      split
      · rw [isWord, List.all_cons, hall]
        rfl
      · next hdigit => rw [isWord, hall, Bool.eq_false_iff.mpr hdigit, Bool.not_false, Bool.and_self]
  kept s h := by
    cases hs : s.toList with
    | nil => rw [hs] at h; cases h
    | cons c cs =>
      rw [hs, isWord, Bool.and_eq_true, List.all_eq_true, Bool.not_eq_true'] at h
      have htrim : Text.trimBy Text.isBlank (c :: cs) = c :: cs :=
        Text.trimBy_of_forall fun a ha => Text.isBlank_of_isWordChar (h.2 a ha)
      have hmap : ((c :: cs).map fun a => if Text.isWordChar a then a else '_') = c :: cs :=
        (List.map_congr_left fun a ha => if_pos (h.2 a ha)).trans (List.map_id _)
      rw [identifier, Text.trim, String.toList_ofList, hs, htrim, hmap]
      simp only [h.1, Bool.false_eq_true, if_false]
      rw [← hs, String.ofList_toList]

end Name

namespace EntryFunction

/-- The function of an entry is named by a word. -/
theorem isWord_nameOf (moduleId : String) (n : PlacedNode) :
    Name.isWord (nameOf moduleId n).toList = true := by
  unfold nameOf
  extract_lets given
  split
  · exact Name.identifier_shapes.shaped given
  · split
    · next context _ =>
      rw [String.append_assoc, String.toList_append]
      refine Name.isWord_append
        (Name.isWord_of_isCapitalized (Name.modulePrefix_shapes.shaped moduleId)) ?_
      cases context <;> decide +kernel
    · exact Name.identifier_shapes.shaped _

theorem isWord_of_mem_paramsOf {n : PlacedNode} {slot : Endpoint} {type name : String}
    (h : (slot, type, name) ∈ paramsOf n) : Name.isWord name.toList = true := by
  obtain ⟨s, -, hs⟩ := List.mem_map.mp h
  cases hs
  exact Name.identifier_shapes.shaped s.name

/-- The lines that name the function and its parameters. -/
def head (f : EntryFunction) : List String :=
  ["global function " ++ f.name, "",
   f.entry.definition.returnType ++ " function " ++ f.name ++ "(" ++
     ", ".intercalate (f.params.map fun p => p.1 ++ " " ++ p.2) ++ ")"]

theorem head_infix_render (f : EntryFunction) (indent : String) : f.head <:+: f.render indent := by
  unfold render
  extract_lets d params threads function
  have hfunction : f.head <:+: function := by
    simp only [function, List.append_assoc]
    exact (List.prefix_append _ _).isInfix
  split
  · exact (List.infix_cons hfunction).trans (List.prefix_append _ _).isInfix
  · exact List.infix_cons hfunction

/-- The names in the head of a function are words. -/
theorem isWord_of_make {x : Index} {moduleId : String} {n : PlacedNode} {flow : Parts}
    {f : EntryFunction} (h : make x moduleId n flow = .ok f) :
    Name.isWord f.name.toList = true ∧ ∀ p ∈ f.params, Name.isWord p.2.toList = true := by
  obtain ⟨_, _, _, -, -, -, hparams, -⟩ := make_ok h
  rw [name_of_make h, hparams, List.forall_mem_map]
  exact ⟨isWord_nameOf moduleId n, fun e he => isWord_of_mem_paramsOf he⟩

end EntryFunction

namespace Script

/-- **Names are words.**  A module prefix is a capital letter and then ASCII letters and digits; an
identifier is made of word characters, at least one, and starts with no digit.  Texts of these
shapes, and no others, stay as they are, so that nothing changes the second time.  In the script of
any graph the heads of all functions of entries have words as names of the function and of its
parameters. -/
theorem emitted_names :
    (∀ s, Name.isCapitalized (Name.modulePrefix s).toList = true ∧
      Name.modulePrefix (Name.modulePrefix s) = Name.modulePrefix s ∧
      (Name.modulePrefix s = s ↔ Name.isCapitalized s.toList = true)) ∧
    (∀ s, Name.isWord (Name.identifier s).toList = true ∧
      Name.identifier (Name.identifier s) = Name.identifier s ∧
      (Name.identifier s = s ↔ Name.isWord s.toList = true)) ∧
    ∀ catalog indent moduleId nodes connections text,
      generate catalog indent moduleId nodes connections = .ok text →
      nodes = [] ∧ text = emptyText ∨
      ∃ x fs, Index.build catalog nodes connections = .ok x ∧ functions x moduleId = .ok fs ∧
        text = Script.text indent moduleId fs ∧
        ∀ f ∈ fs, f.head <:+: f.render indent ∧ Name.isWord f.name.toList = true ∧
          ∀ p ∈ f.params, Name.isWord p.2.toList = true := by
  have hcapital := Name.modulePrefix_shapes
  have hword := Name.identifier_shapes
  refine ⟨fun s => ⟨hcapital.shaped s, hcapital.idempotent s, hcapital.eq_self_iff s⟩,
    fun s => ⟨hword.shaped s, hword.idempotent s, hword.eq_self_iff s⟩, ?_⟩
  intro catalog indent moduleId nodes connections text hgen
  by_cases hne : nodes = []
  · subst hne
    exact .inl ⟨rfl, (Except.ok.inj hgen).symm⟩
  cases hbuild : Index.build catalog nodes connections with
  | error f =>
    rw [generate, if_neg (by simpa using hne), hbuild] at hgen
    cases hgen
  | ok x =>
    obtain ⟨fs, hfs, htext⟩ := functions_of_generate hbuild hgen
    refine .inr ⟨x, fs, rfl, hfs, htext hne, fun f hf => ⟨f.head_infix_render indent, ?_⟩⟩
    obtain ⟨_, -, hmake⟩ := exists_of_mem_mapM hfs hf
    exact EntryFunction.isWord_of_make hmake

/-- A start-up node without a name, and an event whose name and parameter start with digits. -/
def plateNodes : List Node :=
  [{ id := "boot", nodeType := "init-client" },
   { id := "plate", nodeType := "event", data := [("functionName", .str " ²nd plate! ")]
     outputs := [{ id := "7½ kg", isInput := false }] }]

theorem emitted_names_plate : ∃ text x fs,
    generate .builtin "\t" "2 fast-4u" plateNodes [] = .ok text ∧
      functions x "2 fast-4u" = .ok fs ∧
      (fs.flatMap fun f => f.name :: f.params.map Prod.snd) =
        ["Mod2Fast4u_ClientInit", "_²nd_plate_", "_7½_kg"] ∧
      ∀ f ∈ fs, f.head <:+: f.render "\t" ∧ Name.isWord f.name.toList = true ∧
        ∀ p ∈ f.params, Name.isWord p.2.toList = true := by
  have hrun : (Index.build .builtin plateNodes []).toOption.any (fun x =>
      (functions x "2 fast-4u").toOption.any fun fs =>
        (fs.flatMap fun f => f.name :: f.params.map Prod.snd) ==
          ["Mod2Fast4u_ClientInit", "_²nd_plate_", "_7½_kg"]) = true := by
    rw [Index.build, Index.addNode_builtin]
    decide +kernel
  obtain ⟨x, fs, hx, hfs, htext, hrun⟩ := exists_of_run (List.cons_ne_nil _ _) hrun "\t"
  obtain ⟨hnil, -⟩ | ⟨x', fs', hx', hfs', -, hwords⟩ := emitted_names.2.2 _ _ _ _ _ _ htext
  · cases hnil
  obtain rfl := Except.ok.inj (hx.symm.trans hx')
  obtain rfl := Except.ok.inj (hfs.symm.trans hfs')
  exact ⟨_, x, fs, htext, hfs, eq_of_beq hrun, hwords⟩

end Script

end VisualScript
