import VisualScript.Proofs.Documents
import VisualScript.Proofs.Embedding
import VisualScript.Proofs.Soundness

/-!
# Proofs — Round trip

A project that is embedded in a script is extracted again (`Embedding.extract?_embed`).  The text of
the envelope leads back to the project (`Reading.ofText_envelope`), if its doubles are finite and
its values stay within the limits of the reader (`Project.isReadable`): each part of the envelope
has a lemma that says how deep it reaches (`within`) and one that it is sound (`toJson_sound`).
Doubles that are not finite are written as null, so the project and what has become of it have one
text (`Project.text_restored`).  All this holds of sound projects, and a project is sound if it was
read (`Reading.ofText_sound`).
-/

namespace VisualScript

/-! ### Limits -/

namespace Json

variable {es : List (String × Json)} {xs : List Json} {level : Nat}

/-- A value that stands `level` deep in JSON text stays within the limits of the reader. -/
def Within (level : Nat) (v : Json) : Prop :=
  level + v.depth ≤ Reading.limits.depth + 1 ∧ v.longest ≤ Reading.limits.digits

instance (level : Nat) (v : Json) : Decidable (Within level v) :=
  inferInstanceAs (Decidable (_ ∧ _))

theorem itemsDepth_le {n : Nat} : itemsDepth xs ≤ n ↔ ∀ x ∈ xs, x.depth ≤ n := by
  induction xs with
  | nil => simp [itemsDepth]
  | cons x xs ih => simp [itemsDepth, ih]

theorem entriesDepth_eq (es : List (String × Json)) :
    entriesDepth es = itemsDepth (es.map Prod.snd) := by
  induction es with
  | nil => rfl
  | cons e es ih => rw [entriesDepth, ih, List.map_cons, itemsDepth]

theorem entriesLongest_eq (es : List (String × Json)) :
    entriesLongest es = itemsLongest (es.map Prod.snd) := by
  induction es with
  | nil => rfl
  | cons e es ih => rw [entriesLongest, ih, List.map_cons, itemsLongest]

theorem within_arr (h : level ≤ Reading.limits.depth) :
    Within level (.arr xs) ↔ ∀ x ∈ xs, Within (level + 1) x := by
  have hdepth : level + (Json.arr xs).depth ≤ Reading.limits.depth + 1 ↔
      ∀ x ∈ xs, level + 1 + x.depth ≤ Reading.limits.depth + 1 := by
    have hitems := @itemsDepth_le xs (Reading.limits.depth - level)
    rw [depth]
    constructor
    · intro hle x hx
      have := hitems.mp (by omega) x hx
      omega
    · intro hall
      have := hitems.mpr fun x hx => by have := hall x hx; omega
      omega
  rw [Within, hdepth, longest, itemsLongest_le]
  exact forall₂_and.symm

theorem within_obj (h : level ≤ Reading.limits.depth) :
    Within level (.obj es) ↔ ∀ e ∈ es, Within (level + 1) e.2 := by
  have harr : Within level (.obj es) ↔ Within level (.arr (es.map Prod.snd)) := by
    rw [Within, Within, depth, depth, longest, longest, entriesDepth_eq, entriesLongest_eq]
  rw [harr, within_arr h, List.forall_mem_map]

theorem within_scalar {v : Json} (hdepth : v.depth = 1) (hlongest : v.longest = 0)
    (h : level ≤ Reading.limits.depth) : Within level v :=
  ⟨by omega, by simp [hlongest]⟩

theorem within_str (s : String) (h : level ≤ Reading.limits.depth) : Within level (.str s) :=
  within_scalar (by simp [depth]) (by simp [longest]) h

theorem within_bool (b : Bool) (h : level ≤ Reading.limits.depth) : Within level (.bool b) :=
  within_scalar (by simp [depth]) (by simp [longest]) h

theorem within_null (h : level ≤ Reading.limits.depth) : Within level .null :=
  within_scalar (by simp [depth]) (by simp [longest]) h

theorem within_float (x : Binary64) (h : level ≤ Reading.limits.depth) :
    Within level (.float x) :=
  within_scalar (by simp [depth]) (by simp [longest]) h

theorem within_ofText? (o : Option String) (h : level ≤ Reading.limits.depth) :
    Within level (.ofText? o) := by
  cases o with
  | none => exact within_null h
  | some s => exact within_str s h

end Json

section

attribute [local simp] Json.within_arr Json.within_obj Json.within_str Json.within_bool
  Json.within_null Json.within_float Json.within_ofText?

variable {level : Nat}

theorem limits_depth : Reading.limits.depth = 200 := by simp [Reading.limits]

theorem Port.within (p : Port) (h : level + 1 ≤ Reading.limits.depth) :
    Json.Within level p.toJson := by
  have : level ≤ Reading.limits.depth := by omega
  simp [Port.toJson, this, h]

theorem Placement.within (p : Placement) (h : level + 1 ≤ Reading.limits.depth) :
    Json.Within level (p.toJson Json.zero) := by
  have h₀ : level ≤ Reading.limits.depth := by omega
  rw [Placement.toJson_zero, Json.within_obj h₀, List.forall_mem_map]
  exact fun e _ => Json.within_float e.2 h

/-- Only the payload of a node can go beyond the limits. -/
theorem Node.within_iff (n : Node) (h : level + 3 ≤ Reading.limits.depth) :
    Json.Within level (n.toJson Json.zero) ↔ ∀ e ∈ n.data, Json.Within (level + 2) e.2 := by
  have h₁ : level + 1 ≤ Reading.limits.depth := by omega
  have h₀ : level ≤ Reading.limits.depth := by omega
  have hposition := n.position.within (show level + 1 + 1 ≤ Reading.limits.depth by omega)
  have hport (p : Port) := p.within h
  simp [Node.toJson, h₀, h₁, hposition, hport]

theorem Connection.within (c : Connection) (h : level + 2 ≤ Reading.limits.depth) :
    Json.Within level c.toJson := by
  have h₁ : level + 1 ≤ Reading.limits.depth := by omega
  have h₀ : level ≤ Reading.limits.depth := by omega
  simp [Connection.toJson, Endpoint.toJson, h₀, h₁, h]

theorem ScriptFile.within_iff (f : ScriptFile) :
    Json.Within 3 (f.toJson Json.zero) ↔ ∀ n ∈ f.nodes, ∀ e ∈ n.data, Json.Within 7 e.2 := by
  have hnode (n : Node) := n.within_iff (show 5 + 3 ≤ Reading.limits.depth by decide)
  have hconnection (c : Connection) := c.within (show 5 + 2 ≤ Reading.limits.depth by decide)
  simp [ScriptFile.toJson, limits_depth, hnode, hconnection]

theorem ModSettings.within (m : ModSettings) : Json.Within 3 m.toJson := by
  simp [ModSettings.toJson, LocalizationEntry.toJson, limits_depth]

theorem ProjectSettings.within_iff (s : ProjectSettings) :
    Json.Within 2 (s.toJson Json.zero) ↔ ∀ e ∈ s.extra, Json.Within 3 e.2 := by
  have hposition := s.canvasPosition.within (show 3 + 1 ≤ Reading.limits.depth by decide)
  rw [ProjectSettings.toJson, Json.within_obj (by decide), List.forall_mem_append]
  cases s.mod <;> simp [limits_depth, hposition, ModSettings.within]

theorem WeaponFile.within (f : WeaponFile) : Json.Within 3 f.toJson := by
  simp [WeaponFile.toJson, limits_depth]

theorem InterfaceFile.within (f : InterfaceFile) : Json.Within 3 f.toJson := by
  simp [InterfaceFile.toJson, limits_depth]

theorem LocalizationFile.within (f : LocalizationFile) : Json.Within 3 f.toJson := by
  have htokens : Json.Within 4 (.obj (f.tokens.map fun e => (e.1, .str e.2))) := by
    rw [Json.within_obj (by decide), List.forall_mem_map]
    exact fun e _ => Json.within_str e.2 (by decide)
  rw [LocalizationFile.toJson, Json.within_obj (by decide)]
  simp [-Json.within_obj, limits_depth, htokens]

theorem Metadata.within (m : Metadata) : Json.Within 2 m.toJson := by
  simp [Metadata.toJson, limits_depth]

/-- Whether the values of a table, which stand `level` deep, stay within the limits. -/
def Json.areReadable (level : Nat) (entries : List (String × Json)) : Bool :=
  entries.all fun e => decide (Json.Within level e.2)

namespace Project

/-- Whether the JSON text of the project with its version can be read: the values it passes on
stand three deep in the settings, seven deep in a script file and five deep in a graph of its
own. -/
def isReadable (p : Project) : Bool :=
  Json.areReadable 3 p.settings.extra &&
    p.scripts.all (fun f => f.nodes.all fun n => Json.areReadable 7 n.data) &&
    (p.nodes.getD []).all fun n => Json.areReadable 5 n.data

end Project

/-- **The text of a project can be read if and only if the values it passes on allow it.** -/
theorem Envelope.within_iff (e : Envelope) :
    Json.Within 0 (e.toJson Json.zero) ↔ e.project.isReadable = true := by
  have hsettings := e.project.settings.within_iff
  have hnode (n : Node) := n.within_iff (show 3 + 3 ≤ Reading.limits.depth by decide)
  have hconnection (c : Connection) := c.within (show 3 + 2 ≤ Reading.limits.depth by decide)
  cases hn : e.project.nodes <;> cases hc : e.project.connections <;>
    simp [Envelope.toJson, Project.toJson, Project.isReadable, Json.areReadable, limits_depth,
      hsettings, hnode, hconnection, hn, hc, Metadata.within, ScriptFile.within_iff,
      WeaponFile.within, InterfaceFile.within, LocalizationFile.within, and_assoc]

end

/-! ### Soundness of the JSON value -/

section

attribute [local simp] Json.Sound Json.SoundEntries Json.soundItems_iff Assoc.keys

theorem Json.sound_ofText? (o : Option String) : (Json.ofText? o).Sound := by
  cases o <;> simp [Json.ofText?]

theorem Port.toJson_sound (p : Port) : p.toJson.Sound := by
  simp [Port.toJson, Json.sound_ofText?]

theorem Placement.toJson_sound {p : Placement} (h : p.Sound) : (p.toJson Json.zero).Sound := by
  rw [Placement.toJson_zero]
  refine ⟨?_, Json.soundEntries_iff.mpr ?_⟩
  · have := h.axes
    simpa [Function.comp_def] using this
  · rw [List.forall_mem_map]
    exact fun e he => h.canonical e he

theorem Node.toJson_sound {n : Node} (h : n.Sound) : (n.toJson Json.zero).Sound := by
  have hposition := Placement.toJson_sound h.position
  simpa [Node.toJson, Json.sound_ofText?, Port.toJson_sound, hposition] using h.data

theorem Connection.toJson_sound (c : Connection) : c.toJson.Sound := by
  simp [Connection.toJson, Endpoint.toJson]

theorem ScriptFile.toJson_sound {f : ScriptFile} (h : ∀ n ∈ f.nodes, n.Sound) :
    (f.toJson Json.zero).Sound := by
  simpa [ScriptFile.toJson, Connection.toJson_sound] using fun n hn => Node.toJson_sound (h n hn)

theorem Metadata.toJson_sound (m : Metadata) : m.toJson.Sound := by
  simp [Metadata.toJson]

theorem ModSettings.toJson_sound (m : ModSettings) : m.toJson.Sound := by
  simp [ModSettings.toJson, LocalizationEntry.toJson]

theorem ProjectSettings.toJson_sound {s : ProjectSettings} (h : s.Sound) :
    (s.toJson Json.zero).Sound := by
  have hposition := Placement.toJson_sound h.canvasPosition
  rw [ProjectSettings.toJson]
  refine ⟨?_, Json.soundEntries_iff.mpr ?_⟩
  · rw [Assoc.keys, List.map_append, List.nodup_append]
    refine ⟨by simp, h.extra.1, fun k hk k' hk' heq => h.unknown k' hk' ?_⟩
    subst heq
    simpa [ProjectSettings.fieldKeys] using hk
  · rw [List.forall_mem_append]
    refine ⟨?_, Json.soundEntries_iff.mp h.extra.2⟩
    cases s.mod <;> simp [hposition, h.canvasZoom, Json.sound_ofText?, ModSettings.toJson_sound]

theorem WeaponFile.toJson_sound (f : WeaponFile) : f.toJson.Sound := by
  simp [WeaponFile.toJson, Json.sound_ofText?]

theorem InterfaceFile.toJson_sound (f : InterfaceFile) : f.toJson.Sound := by
  simp [InterfaceFile.toJson]

theorem LocalizationFile.toJson_sound {f : LocalizationFile} (h : f.Sound) : f.toJson.Sound := by
  have htokens : (Json.obj (f.tokens.map fun e => (e.1, .str e.2))).Sound := by
    refine ⟨?_, Json.soundEntries_iff.mpr ?_⟩
    · simpa [Function.comp_def] using h.tokens
    · rw [List.forall_mem_map]
      exact fun e _ => trivial
  simpa [LocalizationFile.toJson] using htokens

theorem Envelope.toJson_sound {e : Envelope} (h : e.project.Sound) : (e.toJson Json.zero).Sound := by
  have hsettings := ProjectSettings.toJson_sound h.settings
  have hscripts : ∀ f ∈ e.project.scripts, (f.toJson Json.zero).Sound :=
    fun f hf => ScriptFile.toJson_sound (h.scripts f hf)
  have hlocalizations : ∀ f ∈ e.project.localizations, f.toJson.Sound :=
    fun f hf => LocalizationFile.toJson_sound (h.localizations f hf)
  have hnodes : ∀ n ∈ e.project.nodes.getD [], (n.toJson Json.zero).Sound :=
    fun n hn => Node.toJson_sound (h.nodes n hn)
  cases hn : e.project.nodes <;> cases hc : e.project.connections <;>
    simpa [Envelope.toJson, Project.toJson, Metadata.toJson_sound, hsettings,
      WeaponFile.toJson_sound, InterfaceFile.toJson_sound, Connection.toJson_sound, hn, hc]
      using And.intro hscripts (And.intro hlocalizations hnodes)

end

/-- **What comes back from the text of a project.** -/
theorem Reading.ofText_envelope (r : Reading) {e : Envelope} (h : e.project.Sound) :
    (r.ofText Reading.envelope e.text).value? =
      if e.project.isFinite && e.project.isReadable then some ⟨e.version, e.project.restored⟩
      else none := by
  have hread : Json.read? Reading.limits e.text =
      if e.project.isReadable then some (e.toJson Json.zero).restored else none := by
    have hwithin := e.within_iff
    rw [Json.Within, Nat.zero_add] at hwithin
    rw [Envelope.text, Json.read?_write (by decide) (Envelope.toJson_sound h)]
    simp only [hwithin]
  have henvelope := Reading.envelope_restored { r with saturate := true } h
  rw [Reading.ofText, hread]
  by_cases hreadable : e.project.isReadable = true
  · simp only [hreadable, if_true, henvelope, Bool.and_true]
  · simp [hreadable]

/-! ### Equal texts -/

section

attribute [local simp] Json.restored Json.restoredEntries Json.restoredItems_eq_map
  Json.restoredEntries_restored

theorem Placement.toJson_restored (p : Placement) :
    p.restored.toJson Json.zero = p.toJson Json.zero := by
  rw [Placement.toJson_zero, Placement.toJson_zero]
  rfl

theorem Node.toJson_restored (n : Node) :
    (n.restored.toJson Json.zero).restored = (n.toJson Json.zero).restored := by
  simp [Node.toJson, Node.restored, Placement.toJson_restored]

theorem ScriptFile.toJson_restored (f : ScriptFile) :
    (f.restored.toJson Json.zero).restored = (f.toJson Json.zero).restored := by
  simp [ScriptFile.toJson, ScriptFile.restored, Function.comp_def, Node.toJson_restored]

theorem ProjectSettings.toJson_restored (s : ProjectSettings) :
    (s.restored.toJson Json.zero).restored = (s.toJson Json.zero).restored := by
  have hfields : s.restored.savedFields = s.savedFields := by
    rw [ProjectSettings.savedFields, show s.restored.canvasPosition = s.canvasPosition.restored from rfl,
      Placement.toJson_restored]
    rfl
  rw [ProjectSettings.restored_toJson, ProjectSettings.restored_toJson, hfields,
    show s.restored.extra = Json.restoredEntries s.extra from rfl, Json.restoredEntries_restored]

theorem Project.toJson_restored (p : Project) :
    (p.restored.toJson Json.zero).restored = (p.toJson Json.zero).restored := by
  rw [Project.restored_toJson, Project.restored_toJson]
  cases hn : p.nodes <;>
    simp [Project.savedFields, Project.restored, Function.comp_def, ProjectSettings.toJson_restored,
      ScriptFile.toJson_restored, Node.toJson_restored, hn]

/-- A project that has come back has the same text. -/
theorem Project.text_restored (p : Project) : p.restored.text = p.text := by
  rw [Project.text, Project.text, Json.write, Json.write, ← Json.value_restored,
    Project.toJson_restored, Json.value_restored]

end

/-! ### The round trip -/

theorem Json.areShallow_of_areReadable {level : Nat} {es : List (String × Json)}
    (h : Json.areReadable level es = true) : Json.areShallow es = true := by
  refine List.all_eq_true.mpr fun e he => ?_
  have hdepth := (of_decide_eq_true (List.all_eq_true.mp h e he)).1
  rw [limits_depth] at hdepth
  exact decide_eq_true (show e.2.depth ≤ 255 by omega)

/-- What can be read again can be written. -/
theorem Project.isWritable_of_isReadable {p : Project} (h : p.isReadable = true) :
    p.isWritable = true := by
  simp only [Project.isReadable, Bool.and_eq_true, List.all_eq_true] at h
  obtain ⟨⟨hsettings, hscripts⟩, hnodes⟩ := h
  simp only [Project.isWritable, ProjectSettings.isWritable, ScriptFile.isWritable,
    Node.isWritable, Bool.and_eq_true, List.all_eq_true]
  exact ⟨⟨Json.areShallow_of_areReadable hsettings,
    fun f hf n hn => Json.areShallow_of_areReadable (hscripts f hf n hn)⟩,
    fun n hn => Json.areShallow_of_areReadable (hnodes n hn)⟩

namespace Embedding

/-- Whether a script holds a marker already. -/
def hasMarker (code : String) : Bool :=
  Text.occursIn beginMarker.toList code.toList || Text.occursIn endMarker.toList code.toList

variable {settings : Settings} {given : Option Int} {p : Project}

theorem extract?_of_embed (r : Reading) (code : String) (hsize : 0 < chunkSize settings given)
    (hp : p.Sound) (hwritable : p.isWritable = true) :
    ∃ host, embed settings given code p = .ok host ∧ extract? r host =
      if hasMarker code then extract? r code
      else if p.isFinite && p.isReadable then some p.restored else none := by
  obtain ⟨host, hembed, hhost⟩ := @embed_ok settings given code p hwritable hsize
  refine ⟨host, hembed, ?_⟩
  by_cases hmarker : hasMarker code = true
  · rw [if_pos hmarker]
    rw [hasMarker, Bool.or_eq_true] at hmarker
    exact extract?_of_marker r (encoded_chunks hsize _) hhost hmarker
  · rw [if_neg hmarker]
    rw [hasMarker, Bool.not_eq_true, Bool.or_eq_false_iff] at hmarker
    rw [extract?_of_no_marker r hsize _ hhost hmarker.1 hmarker.2, Reading.ofText_envelope r hp]
    split <;> rfl

/-- **What is embedded is extracted.**  Let a project be sound, as it is if it was read from a text.
Behind a script without markers stands the project that is found again: as it was, but with null for
the doubles that are not finite in the values it only passes on, and with the same text.  It is not
found if a double of its own fields is not finite or a value exceeds the limits of the reader, and
it is not embedded at all if a value nests too deep for the writer.  Where a script has a marker
already, what is extracted stays the same. -/
theorem extract?_embed (settings : Settings) (given : Option Int) (r : Reading) (code : String)
    (p : Project) (hsize : 0 < chunkSize settings given)
    (hp : p.Sound ∨ ∃ s text, Reading.ofText s Reading.project text = .valid p) :
    p.restored.text = p.text ∧ (p.isReadable = true → p.isWritable = true) ∧
    if p.isWritable then
      ∃ host, embed settings given code p = .ok host ∧ extract? r host =
        if hasMarker code then extract? r code
        else if p.isFinite && p.isReadable then some p.restored else none
    else embed settings given code p = .error .tooDeep := by
  have hp : p.Sound := hp.elim id fun ⟨_, _, hread⟩ => Reading.ofText_sound hread
  refine ⟨p.text_restored, Project.isWritable_of_isReadable, ?_⟩
  by_cases hwritable : p.isWritable = true
  · rw [if_pos hwritable]
    exact extract?_of_embed r code hsize hp hwritable
  · rw [if_neg hwritable, embed, Bool.eq_false_iff.mpr hwritable]
    rfl

/-- A project with doubles of all kinds. -/
def keepsake : Project where
  metadata := ⟨"Demo", "1.0.0", "", "", "", "", "0.1.0"⟩
  settings :=
    { canvasPosition := .at [("x", .ofDecimal true 1 (-1))], extra := [("ratio", .float .nan)] }
  nodes := some [{ id := "a", nodeType := "print", data := [("message",
    .arr [.str "\"\n", .int (-7), .float (.infinite true), .float (.ofDecimal false 1 (-7))])] }]

theorem keepsake_sound : keepsake.Sound := by
  refine ⟨⟨⟨by decide, ?_⟩, Binary64.ofInt_canonical 1, ?_, by decide⟩, by simp [keepsake],
    by simp [keepsake], ?_⟩
  · simpa [keepsake, Placement.coordinates] using Binary64.ofDecimal_canonical true 1 (-1)
  · exact ⟨by decide, trivial, trivial⟩
  · simp only [keepsake, Option.getD_some, List.mem_singleton, forall_eq]
    have hsmall : (Json.float (.ofDecimal false 1 (-7))).Sound := by
      rw [Json.Sound]
      exact Binary64.ofDecimal_canonical false 1 (-7)
    exact ⟨Reading.unplaced_sound, by decide, ⟨trivial, trivial, trivial, hsmall, trivial⟩, trivial⟩

/-- In pieces of seven characters the project comes back, with null in two places. -/
theorem extract?_embed_keepsake :
    0 < chunkSize {} (some 7) ∧ keepsake.Sound ∧
    keepsake.restored.settings.extra = [("ratio", .null)] ∧
    ∃ host, embed {} (some 7) "main()" keepsake = .ok host ∧
      extract? { timestamp := "" } host = some keepsake.restored := by
  have hspec := (extract?_embed {} (some 7) { timestamp := "" } "main()" keepsake (by decide)
    (.inl keepsake_sound)).2.2
  have hwritable : keepsake.isWritable = true := by decide +kernel
  have hmarker : hasMarker "main()" = false := by decide +kernel
  have hback : (keepsake.isFinite && keepsake.isReadable) = true := by decide +kernel
  rw [if_pos hwritable, hmarker, hback] at hspec
  exact ⟨by decide, keepsake_sound, rfl, hspec⟩

/-- Arrays, each in the other. -/
def nested : Nat → Json
  | 0     => .null
  | n + 1 => .arr [nested n]

theorem nested_sound (n : Nat) : (nested n).Sound := by
  induction n with
  | zero => trivial
  | succ n ih => exact ⟨ih, trivial⟩

/-- A project with a value that can be written and not read. -/
def buried : Project where
  metadata := ⟨"Demo", "1.0.0", "", "", "", "", "0.1.0"⟩
  settings := { extra := [("deep", nested 198)] }

/-- Its doubles are finite and the script has no marker, but the project does not come back. -/
theorem buried_not_extracted : buried.isFinite = true ∧ hasMarker "" = false ∧
    ∃ host, embed {} none "" buried = .ok host ∧ extract? { timestamp := "" } host = none := by
  have hsound : buried.Sound :=
    ⟨⟨Reading.unplaced_sound, Binary64.ofInt_canonical 1,
      ⟨by decide, nested_sound 198, trivial⟩, by decide⟩, by simp [buried], by simp [buried],
      by simp [buried]⟩
  have hmarker : hasMarker "" = false := by decide +kernel
  have hlost : (buried.isFinite && buried.isReadable) = false := by decide +kernel
  obtain ⟨host, hembed, hextract⟩ := @extract?_of_embed {} none buried { timestamp := "" } ""
    (by decide) hsound (by decide +kernel)
  rw [hmarker, hlost] at hextract
  exact ⟨by decide +kernel, hmarker, host, hembed, hextract⟩

end Embedding

end VisualScript
