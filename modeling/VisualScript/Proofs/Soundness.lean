import VisualScript.Proofs.Documents

/-!
# Proofs — Soundness

What is read is sound.  Text gives doubles in the form of one (`Json.read?_canonical`), taking the
repeated keys away leaves each key once (`Json.distinct_sound`), and every record passes both on;
so every project that is read from text is sound (`Reading.ofText_sound`).
-/

namespace VisualScript

namespace Json

/-! ### Values with doubles in their form -/

mutual

/-- Every double in a value has the form of one; keys may repeat. -/
def Canonical : Json → Prop
  | .float x => x.Canonical
  | .arr xs  => CanonicalItems xs
  | .obj es  => CanonicalEntries es
  | _        => True

def CanonicalItems : List Json → Prop
  | []      => True
  | x :: xs => x.Canonical ∧ CanonicalItems xs

def CanonicalEntries : List (String × Json) → Prop
  | []           => True
  | (_, v) :: es => v.Canonical ∧ CanonicalEntries es

end

theorem canonicalItems_iff {xs : List Json} : CanonicalItems xs ↔ ∀ x ∈ xs, x.Canonical := by
  induction xs with
  | nil => simp [CanonicalItems]
  | cons x xs ih => simp [CanonicalItems, ih]

theorem canonicalEntries_iff {es : List (String × Json)} :
    CanonicalEntries es ↔ ∀ e ∈ es, e.2.Canonical := by
  induction es with
  | nil => simp [CanonicalEntries]
  | cons e es ih => simp [CanonicalEntries, ih]

/-- Setting entries one after the other leaves each key once. -/
theorem sound_merge {es : List (String × Json)} (h : ∀ e ∈ es, e.2.Sound) :
    (Json.obj (Assoc.merge [] es)).Sound := by
  refine ⟨Assoc.nodup_keys_merge List.nodup_nil, soundEntries_iff.mpr fun e he => ?_⟩
  exact h e ((Assoc.mem_merge he).resolve_left (by simp))

mutual

/-- Without its repeated keys, a value is sound. -/
theorem distinct_sound : ∀ {v : Json}, v.Canonical → v.distinct.Sound
  | .null, _ | .bool _, _ | .int _, _ | .str _, _ => by simp [distinct, Sound]
  | .float x, h => by rwa [distinct]; all_goals simp
  | .arr xs, h => by
    rw [distinct]
    exact soundItems_iff.mpr (distinctItems_sound h)
  | .obj es, h => by
    rw [distinct]
    exact sound_merge (distinctValues_sound h)

theorem distinctItems_sound : ∀ {xs : List Json}, CanonicalItems xs →
    ∀ x ∈ distinctItems xs, x.Sound
  | [], _ => by simp [distinctItems]
  | x :: xs, h => by
    rw [distinctItems, List.forall_mem_cons]
    exact ⟨distinct_sound h.1, distinctItems_sound h.2⟩

theorem distinctValues_sound : ∀ {es : List (String × Json)}, CanonicalEntries es →
    ∀ e ∈ distinctValues es, e.2.Sound
  | [], _ => by simp [distinctValues]
  | (k, v) :: es, h => by
    rw [distinctValues, List.forall_mem_cons]
    exact ⟨distinct_sound h.1, distinctValues_sound h.2⟩

end

/-! ### Reading text -/

section

open Reader

variable {limit : Nat}

theorem unsigned?_canonical {negative : Bool} {cs rest : List Char} {v : Json}
    (h : unsigned? limit negative cs = some (v, rest)) : v.Canonical := by
  simp only [unsigned?, Option.bind_eq_bind, Option.bind_eq_some_iff] at h
  obtain ⟨⟨whole, cs₁⟩, -, h⟩ := h
  split at h
  case isTrue => cases h
  case isFalse =>
    simp only [Option.bind_eq_some_iff] at h
    obtain ⟨⟨fraction, cs₂⟩, -, ⟨exponent, cs₃⟩, -, h⟩ := h
    split at h <;> cases h
    · trivial
    · exact Binary64.ofDecimal_canonical _ _ _

theorem scalar?_canonical {cs rest : List Char} {v : Json}
    (h : scalar? limit cs = some (v, rest)) : v.Canonical := by
  unfold scalar? at h
  split at h
  · cases h
  · simp only [Option.bind_eq_bind, Option.bind_eq_some_iff] at h
    obtain ⟨_, -, h⟩ := h
    cases h
    trivial
  iterate 5
    · obtain ⟨_, -, h⟩ := Option.map_eq_some_iff.mp h
      cases h
      trivial
  · split at h
    · obtain ⟨_, -, h⟩ := Option.map_eq_some_iff.mp h
      cases h
      trivial
    · exact unsigned?_canonical h
  · exact unsigned?_canonical h

/-- What one more unit of fuel reads has doubles in their form. -/
theorem value?_canonical (fuel : Nat) :
    (∀ {depth cs v rest}, value? limit fuel depth cs = some (v, rest) → v.Canonical) ∧
    (∀ {depth cs xs rest}, items? limit fuel depth cs = some (xs, rest) → CanonicalItems xs) ∧
    (∀ {depth cs es rest}, members? limit fuel depth cs = some (es, rest) → CanonicalEntries es) := by
  induction fuel with
  | zero => simp [value?, items?, members?]
  | succ fuel ih =>
    obtain ⟨hvalue, hitems, hmembers⟩ := ih
    refine ⟨fun {depth cs v rest} h => ?_, fun {depth cs xs rest} h => ?_,
      fun {depth cs es rest} h => ?_⟩
    · rw [value?] at h
      split at h
      · split at h
        · cases h
          trivial
        · cases h
        · obtain ⟨⟨xs, r⟩, hxs, heq⟩ := Option.map_eq_some_iff.mp h
          cases heq
          exact hitems hxs
      · split at h
        · cases h
          trivial
        · cases h
        · obtain ⟨⟨es, r⟩, hes, heq⟩ := Option.map_eq_some_iff.mp h
          cases heq
          exact hmembers hes
      · exact scalar?_canonical h
    · rw [items?] at h
      simp only [Option.bind_eq_bind, Option.bind_eq_some_iff] at h
      obtain ⟨⟨x, cs'⟩, hx, h⟩ := h
      split at h
      · cases h
        exact ⟨hvalue hx, trivial⟩
      · obtain ⟨⟨ys, cs''⟩, hys, heq⟩ := Option.bind_eq_some_iff.mp h
        cases heq
        exact ⟨hvalue hx, hitems hys⟩
      · cases h
    · rw [members?] at h
      split at h
      · simp only [Option.bind_eq_bind, Option.bind_eq_some_iff] at h
        obtain ⟨⟨key, cs₁⟩, -, h⟩ := h
        split at h
        · simp only [Option.bind_eq_some_iff] at h
          obtain ⟨⟨w, cs₂⟩, hw, h⟩ := h
          split at h
          · cases h
            exact ⟨hvalue hw, trivial⟩
          · obtain ⟨⟨fs, cs₃⟩, hfs, heq⟩ := Option.bind_eq_some_iff.mp h
            cases heq
            exact ⟨hvalue hw, hmembers hfs⟩
          · cases h
        · cases h
      · cases h

/-- **Every value read from text has its doubles in their form.** -/
theorem read?_canonical {limits : Limits} {text : String} {v : Json}
    (h : read? limits text = some v) : v.Canonical := by
  simp only [read?, Option.bind_eq_bind, Option.bind_eq_some_iff] at h
  obtain ⟨⟨w, rest⟩, hw, h⟩ := h
  split at h
  · cases h
    exact (value?_canonical _).1 hw
  · cases h

end

end Json

/-! ### Checked values -/

namespace Number

theorem readFloat?_canonical {s : String} {x : Binary64} (h : readFloat? s = some x) :
    x.Canonical := by
  have hdigits {negative : Bool} {cs : List Char} {x : Binary64}
      (h : digits? negative cs = some x) : x.Canonical := by
    simp only [digits?] at h
    split at h
    all_goals
      split at h
      · cases h
      · obtain ⟨e, -, h⟩ := Option.bind_eq_some_iff.mp h
        cases h
        exact Binary64.ofDecimal_canonical _ _ _
  have hspelled {cs : List Char} {x : Binary64} (h : spelled? cs = some x) : x.Canonical := by
    simp only [spelled?] at h
    split at h
    · cases h
      trivial
    · split at h
      · cases h
        trivial
      · exact hdigits h
  rw [readFloat?] at h
  split at h
  case h_1 hx =>
    cases h
    exact hspelled hx
  case h_2 =>
    obtain ⟨cs, -, h⟩ := Option.bind_eq_some_iff.mp h
    exact hspelled h

end Number

namespace Check

theorem float_canonical {saturate : Bool} {v : Json} {x : Binary64} (hv : v.Canonical)
    (h : (Check.float saturate v).value? = some x) : x.Canonical := by
  cases v with
  | float y =>
    cases h
    exact hv
  | int i =>
    simp only [Check.float] at h
    split at h <;> cases h
    exact Binary64.ofInt_canonical i
  | bool b =>
    cases h
    exact Binary64.ofInt_canonical _
  | str s =>
    simp only [Check.float] at h
    split at h
    case h_1 hx =>
      cases h
      exact Number.readFloat?_canonical hx
    case h_2 => cases h
  | null => cases h
  | arr xs => cases h
  | obj es => cases h

variable {α : Type}

theorem mem_all {β : Type} {check : α → Checked β} {b : β} :
    ∀ {as : List α} {bs : List β}, (Checked.all check as).value? = some bs → b ∈ bs →
      ∃ a ∈ as, (check a).value? = some b
  | [], _, h, hb => by
    cases h
    cases hb
  | a :: as, bs, h, hb => by
    rw [Checked.all, Checked.value?_apply, Checked.value?_map] at h
    obtain ⟨f, hf, h⟩ := Option.bind_eq_some_iff.mp h
    obtain ⟨b', hb', rfl⟩ := Option.map_eq_some_iff.mp hf
    obtain ⟨bs', hbs', rfl⟩ := Option.map_eq_some_iff.mp h
    rcases List.mem_cons.mp hb with rfl | hb
    · exact ⟨a, List.mem_cons_self, hb'⟩
    · obtain ⟨a', ha', heq⟩ := mem_all hbs' hb
      exact ⟨a', List.mem_cons_of_mem _ ha', heq⟩

section

variable {check : Json → Checked α} {P : α → Prop}
  (hcheck : ∀ {v a}, v.Canonical → (check v).value? = some a → P a)

include hcheck

theorem list_forall {v : Json} {as : List α} (hv : v.Canonical)
    (h : (list check v).value? = some as) : ∀ a ∈ as, P a := by
  intro a ha
  cases v with
  | arr xs =>
    obtain ⟨⟨x, i⟩, hx, hxa⟩ := mem_all h ha
    rw [Checked.value?_within] at hxa
    exact hcheck (Json.canonicalItems_iff.mp hv x (List.fst_mem_of_mem_zipIdx hx)) hxa
  | _ => cases h

theorem nullable_forall {v : Json} {a : Option α} (hv : v.Canonical)
    (h : (nullable check v).value? = some a) : ∀ b ∈ a, P b := by
  rintro b rfl
  by_cases hnull : v = .null
  · subst hnull
    cases h
  · rw [value?_nullable hnull] at h
    obtain ⟨c, hc, heq⟩ := Option.map_eq_some_iff.mp h
    cases heq
    exact hcheck hv hc

/-- A table that was accepted has each key once. -/
theorem table_forall {v : Json} {as : List (String × α)} (hv : v.Canonical)
    (h : (table check v).value? = some as) :
    (Assoc.keys as).Nodup ∧ ∀ e ∈ as, P e.2 := by
  cases v with
  | obj es =>
    rw [table, Checked.value?_map] at h
    obtain ⟨news, hnews, rfl⟩ := Option.map_eq_some_iff.mp h
    refine ⟨Assoc.nodup_keys_merge List.nodup_nil, fun e he => ?_⟩
    have he := (Assoc.mem_merge he).resolve_left (by simp)
    obtain ⟨d, hd, hcheck'⟩ := mem_all hnews he
    rw [Checked.value?_map, Checked.value?_within] at hcheck'
    obtain ⟨a, ha, rfl⟩ := Option.map_eq_some_iff.mp hcheck'
    exact hcheck (Json.canonicalEntries_iff.mp hv d hd) ha
  | _ => cases h

/-- A field that was accepted is the default or was read from an entry. -/
theorem fieldOr_forall {fs : Fields} {keys : List String} {default a : α}
    (hfs : Json.CanonicalEntries fs) (hdefault : P default)
    (h : (fieldOr fs keys default check).value? = some a) : P a := by
  rw [value?_fieldOr] at h
  cases hfind : find? fs keys with
  | none =>
    rw [hfind] at h
    exact Option.some.inj h ▸ hdefault
  | some e =>
    rw [hfind] at h
    obtain ⟨key, -, hkey⟩ := List.exists_of_findSome?_eq_some hfind
    obtain ⟨v, hv, rfl⟩ := Option.map_eq_some_iff.mp hkey
    have hmem := List.mem_reverse.mp (Assoc.mem_of_lookup hv)
    exact hcheck (Json.canonicalEntries_iff.mp hfs _ hmem) h

end

theorem record_fields {check : Fields → Checked α} {v : Json} {a : α}
    (h : (record check v).value? = some a) : ∃ fs, v = .obj fs ∧ (check fs).value? = some a := by
  cases v with
  | obj fs => exact ⟨fs, rfl, h⟩
  | _ => cases h

end Check

namespace Checked

variable {α β : Type}

theorem value?_seq_eq_some {f : Checked (α → β)} {x : Checked α} {b : β} :
    (f <*> x).value? = some b ↔ ∃ g, f.value? = some g ∧ ∃ a, x.value? = some a ∧ g a = b := by
  rw [value?_seq, Option.bind_eq_some_iff]
  simp only [Option.map_eq_some_iff]

end Checked

namespace Reading

open Check

variable {r : Reading} {v : Json}

theorem placement_sound {p : Placement} (hv : v.Canonical)
    (h : (r.placement v).value? = some p) : p.Sound := by
  rw [Reading.placement, Checked.value?_map] at h
  obtain ⟨c, hc, rfl⟩ := Option.map_eq_some_iff.mp h
  obtain ⟨haxes, hcanonical⟩ := table_forall float_canonical hv hc
  exact ⟨haxes, hcanonical⟩

theorem unplaced_sound : Placement.unplaced.Sound := by
  refine ⟨by decide, ?_⟩
  simp only [Placement.coordinates, Coordinates.origin, List.mem_cons, List.not_mem_nil, or_false]
  rintro e (rfl | rfl) <;> exact Binary64.ofRatio_canonical false 0 Nat.one_pos

theorem free_sound {entries : List (String × Json)} (hv : v.Canonical)
    (h : (table free v).value? = some entries) : (Json.obj entries).Sound := by
  have hfree {w a : Json} (hw : w.Canonical) (ha : (free w).value? = some a) : a.Sound := by
    cases ha
    exact Json.distinct_sound hw
  obtain ⟨hkeys, hsound⟩ := table_forall hfree hv h
  exact ⟨hkeys, Json.soundEntries_iff.mpr hsound⟩

theorem empty_sound : (Json.obj []).Sound := ⟨List.nodup_nil, trivial⟩

theorem node_sound {n : Node} (hv : v.Canonical) (h : (r.node v).value? = some n) : n.Sound := by
  obtain ⟨fs, rfl, hfs⟩ := record_fields h
  simp only [Checked.value?_seq_eq_some, Checked.value?_functor, Option.map_eq_some_iff] at hfs
  obtain ⟨_, ⟨_, ⟨_, ⟨_, ⟨_, ⟨_, ⟨_, ⟨_, -, rfl⟩, _, -, rfl⟩, _, -, rfl⟩, _, -, rfl⟩,
    position, hposition, rfl⟩, data, hdata, rfl⟩, _, -, rfl⟩, _, -, rfl⟩ := hfs
  exact ⟨fieldOr_forall placement_sound hv unplaced_sound hposition,
    fieldOr_forall free_sound hv empty_sound hdata⟩

theorem scriptFile_sound {f : ScriptFile} (hv : v.Canonical)
    (h : (r.scriptFile v).value? = some f) : ∀ n ∈ f.nodes, n.Sound := by
  obtain ⟨fs, rfl, hfs⟩ := record_fields h
  simp only [Checked.value?_seq_eq_some, Checked.value?_functor, Option.map_eq_some_iff] at hfs
  obtain ⟨_, ⟨_, ⟨_, ⟨_, ⟨_, ⟨_, -, rfl⟩, _, -, rfl⟩, nodes, hnodes, rfl⟩, _, -, rfl⟩, _, -, rfl⟩,
    _, -, rfl⟩ := hfs
  exact fieldOr_forall (P := fun ns => ∀ n ∈ ns, n.Sound) (list_forall node_sound) hv (by simp)
    hnodes

theorem localizationFile_sound {f : LocalizationFile} (hv : v.Canonical)
    (h : (r.localizationFile v).value? = some f) : f.Sound := by
  obtain ⟨fs, rfl, hfs⟩ := record_fields h
  simp only [Checked.value?_seq_eq_some, Checked.value?_functor, Option.map_eq_some_iff] at hfs
  obtain ⟨_, ⟨_, ⟨_, ⟨_, ⟨_, ⟨_, -, rfl⟩, _, -, rfl⟩, language, hlanguage, rfl⟩, tokens, htokens,
    rfl⟩, _, -, rfl⟩, _, -, rfl⟩ := hfs
  have hknown {w : Json} {s : String} (_ : w.Canonical)
      (hw : (Reading.language w).value? = some s) : s ∈ LocalizationFile.languages := by
    rw [Reading.language, Checked.value?_andThen] at hw
    obtain ⟨t, -, ht⟩ := Option.bind_eq_some_iff.mp hw
    split at ht <;> cases ht
    simpa using ‹LocalizationFile.languages.contains _ = true›
  have hkeys {w : Json} {entries : List (String × String)} (hw : w.Canonical)
      (h : (table text w).value? = some entries) : (Assoc.keys entries).Nodup :=
    (table_forall (P := fun _ => True) (fun _ _ => trivial) hw h).1
  exact ⟨fieldOr_forall (P := (· ∈ LocalizationFile.languages)) hknown hv (by decide) hlanguage,
    fieldOr_forall (P := fun es => (Assoc.keys es).Nodup) hkeys hv (by simp [Assoc.keys]) htokens⟩

/-- A key that is present is the name its field is read by. -/
theorem find?_of_mem_keys {fs : Fields} {key : String} (h : key ∈ Assoc.keys fs)
    (others : List String) : ∃ v, find? fs (key :: others) = some (key, v) := by
  obtain ⟨⟨k, v⟩, hmem, rfl⟩ := List.mem_map.mp h
  obtain ⟨w, hw⟩ := Option.isSome_iff_exists.mp
    (Assoc.lookup_isSome_of_mem (List.mem_reverse.mpr hmem))
  exact ⟨w, by rw [find?, List.findSome?_cons, hw]; rfl⟩

theorem keys_distinctValues (es : List (String × Json)) :
    Assoc.keys (Json.distinctValues es) = Assoc.keys es := by
  induction es with
  | nil => rfl
  | cons e es ih =>
    rw [Json.distinctValues]
    exact congrArg (e.1 :: ·) ih

theorem extraSettings_sound {fs : Fields} (hfs : Json.CanonicalEntries fs) :
    (Json.obj (extraSettings fs)).Sound := by
  refine Json.sound_merge (Json.distinctValues_sound (Json.canonicalEntries_iff.mpr ?_))
  exact fun e he => Json.canonicalEntries_iff.mp hfs e (List.mem_of_mem_filter he)

theorem extraSettings_unknown {fs : Fields} :
    ∀ key ∈ Assoc.keys (extraSettings fs), key ∉ ProjectSettings.fieldKeys := by
  intro key hkey hfield
  obtain ⟨e, he, rfl⟩ := List.mem_map.mp hkey
  have hmem := List.mem_map_of_mem (f := Prod.fst) ((Assoc.mem_merge he).resolve_left (by simp))
  rw [← Assoc.keys, keys_distinctValues] at hmem
  obtain ⟨d, hd, hde⟩ := List.mem_map.mp hmem
  obtain ⟨hd, hunused⟩ := List.mem_filter.mp hd
  rw [show ProjectSettings.fieldKeys = projectSettingsKeys.filterMap List.head? by decide] at hfield
  obtain ⟨keys, hkeys, hhead⟩ := List.mem_filterMap.mp hfield
  obtain ⟨others, rfl⟩ : ∃ others, keys = e.1 :: others := by
    cases keys with
    | nil => cases hhead
    | cons k ks => exact ⟨ks, by rw [Option.some.inj hhead]⟩
  obtain ⟨v, hv⟩ := @find?_of_mem_keys fs e.1 (List.mem_map.mpr ⟨d, hd, hde⟩) others
  have hused : e.1 ∈ projectSettingsKeys.filterMap fun keys => (find? fs keys).map Prod.fst :=
    List.mem_filterMap.mpr ⟨_, hkeys, by rw [hv]; rfl⟩
  simp only [hde, List.contains_eq_mem, hused, decide_true, Bool.not_true] at hunused
  cases hunused

theorem projectSettings_sound {s : ProjectSettings} (hv : v.Canonical)
    (h : (r.projectSettings v).value? = some s) : s.Sound := by
  obtain ⟨fs, rfl, hfs⟩ := record_fields h
  simp only [Checked.value?_seq_eq_some, Checked.value?_functor, Option.map_eq_some_iff] at hfs
  obtain ⟨_, ⟨_, ⟨_, ⟨_, ⟨_, ⟨position, hposition, rfl⟩, zoom, hzoom, rfl⟩, _, -, rfl⟩, _, -, rfl⟩,
    _, -, rfl⟩, extra, hextra, rfl⟩ := hfs
  obtain rfl := Option.some.inj hextra
  exact ⟨fieldOr_forall placement_sound hv unplaced_sound hposition,
    fieldOr_forall float_canonical hv (Binary64.ofInt_canonical 1) hzoom, extraSettings_sound hv, extraSettings_unknown⟩

theorem default_settings_sound : ({} : ProjectSettings).Sound :=
  ⟨unplaced_sound, Binary64.ofInt_canonical 1, empty_sound, by simp [Assoc.keys]⟩

/-- **Every project that is read is sound.** -/
theorem project_sound {p : Project} (hv : v.Canonical) (h : (r.project v).value? = some p) :
    p.Sound := by
  obtain ⟨fs, rfl, hfs⟩ := record_fields h
  simp only [Checked.value?_seq_eq_some, Checked.value?_functor, Option.map_eq_some_iff] at hfs
  obtain ⟨_, ⟨_, ⟨_, ⟨_, ⟨_, ⟨_, ⟨_, ⟨_, -, rfl⟩, settings, hsettings, rfl⟩, scripts, hscripts, rfl⟩,
    _, -, rfl⟩, _, -, rfl⟩, localizations, hlocalizations, rfl⟩, nodes, hnodes, rfl⟩, _, -, rfl⟩ :=
    hfs
  refine ⟨?_, ?_, ?_, ?_⟩
  · exact fieldOr_forall projectSettings_sound hv default_settings_sound hsettings
  · exact fieldOr_forall (P := fun fs => ∀ f ∈ fs, ∀ n ∈ f.nodes, n.Sound)
      (list_forall scriptFile_sound) hv (by simp) hscripts
  · exact fieldOr_forall (P := fun fs => ∀ f ∈ fs, f.Sound)
      (list_forall localizationFile_sound) hv (by simp) hlocalizations
  · have hall := fieldOr_forall (P := fun ns => ∀ ms ∈ ns, ∀ n ∈ ms, n.Sound)
      (nullable_forall (list_forall node_sound)) hv (by simp) hnodes
    cases nodes with
    | none => simp
    | some ms => exact hall ms rfl

theorem ofText_sound {text : String} {p : Project} (h : r.ofText Reading.project text = .valid p) :
    p.Sound := by
  rw [Reading.ofText] at h
  split at h
  case h_1 v hread => exact project_sound (Json.read?_canonical hread) (by rw [h]; rfl)
  case h_2 => cases h

end Reading

end VisualScript
