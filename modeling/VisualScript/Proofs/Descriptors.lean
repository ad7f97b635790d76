import VisualScript.Proofs.KeyValues
import VisualScript.Proofs.Manifests

/-!
# Proofs — Descriptors

Reading the descriptor of a mod back.  The settings stand between quotes as they are, without
escapes, so a descriptor says what it should exactly if the settings and the listed paths are plain
texts (`Descriptor.read?_text_iff`); descriptors of plain settings tell them apart
(`Descriptor.settings_of_text`).  A quote in a name is enough for the descriptor to say something
else, and different settings can have the same descriptor.
-/

namespace VisualScript.Descriptor

open KeyValues

/-- The settings that a descriptor gives, each with its key. -/
def settings (m : ModSettings) : List (String × String) :=
  [("name", m.name), ("id", m.id), ("description", m.description), ("version", m.version),
   ("author", m.author)]

/-- The block of the listed paths. -/
def listed (ps : List String) : List Event :=
  if ps.isEmpty then []
  else .opens "LocalizationFiles" :: (ps.map (Event.pair · "1") ++ [Event.closes])

/-- What the descriptor of a mod should say. -/
def content (m : ModSettings) (files : List LocalizationFile) : List Event :=
  .opens "mod" :: ((settings m).map (fun s => Event.pair s.1 s.2) ++
    (listed (paths m files) ++ [Event.closes]))

/-- The settings and the listed paths are texts that stand for themselves. -/
def Plain (d : Dialect) (m : ModSettings) (files : List LocalizationFile) : Prop :=
  (∀ s ∈ settings m, plain d s.2.toList = true) ∧ ∀ p ∈ paths m files, plain d p.toList = true

instance (d : Dialect) (m : ModSettings) (files : List LocalizationFile) :
    Decidable (Plain d m files) :=
  inferInstanceAs (Decidable (_ ∧ _))

/-! ### Lines -/

variable {d : Dialect} {es : List Event} {cs : List Char}

theorem isBlank_indent : indent.toList.all isBlank = true := rfl

theorem toList_pair (k v : String) : (pair k v).toList =
    indent.toList ++ '"' :: (k.toList ++ '"' :: ' ' :: '"' :: (v.toList ++ ['"'])) := by
  have hquote : "\"".toList = ['"'] := rfl
  have hgap : "\" \"".toList = ['"', ' ', '"'] := rfl
  simp only [pair, String.toList_append, hquote, hgap, List.append_assoc, List.cons_append,
    List.nil_append]

/-- Lines with pairs are read back exactly if all keys and values are plain. -/
theorem scan_pair_lines {gap : String} (hgap : gap.toList.all isBlank = true) :
    ∀ kvs : List (String × String),
      scan d (below (kvs.map fun kv => gap ++ pair kv.1 kv.2) ++ cs) =
          some (kvs.map (fun kv => Event.pair kv.1 kv.2) ++ es) ↔
        (∀ kv ∈ kvs, plain d kv.1.toList = true ∧ plain d kv.2.toList = true) ∧ scan d cs = some es
  | [] => by simp [below]
  | (k, v) :: kvs => by
    have hchars : below (((k, v) :: kvs).map fun kv => gap ++ pair kv.1 kv.2) ++ cs =
        ['\n'] ++ (gap.toList ++ (indent.toList ++ '"' :: (k.toList ++ '"' :: ' ' :: '"' ::
          (v.toList ++ '"' :: (below (kvs.map fun kv => gap ++ pair kv.1 kv.2) ++ cs))))) := by
      simp [below, toList_pair]
    rw [hchars, scan_blanks rfl, scan_blanks hgap, scan_blanks isBlank_indent,
      List.map_cons, List.cons_append, scan_pair_iff, scan_pair_lines hgap kvs,
      List.forall_mem_cons, and_assoc, and_assoc]

theorem scan_setting_lines (m : ModSettings) :
    scan d (below ((settings m).map fun s => pair s.1 s.2) ++ cs) =
        some ((settings m).map (fun s => Event.pair s.1 s.2) ++ es) ↔
      (∀ s ∈ settings m, plain d s.2.toList = true) ∧ scan d cs = some es := by
  have hkeys : ∀ s ∈ settings m, plain d s.1.toList = true := by
    simp only [settings, List.forall_mem_cons]
    exact ⟨rfl, rfl, rfl, rfl, rfl, fun _ h => (List.not_mem_nil h).elim⟩
  have hlines := @scan_pair_lines d es cs "" rfl (settings m)
  simp only [String.empty_append] at hlines
  rw [hlines]
  exact and_congr_left fun _ => forall₂_congr fun s hs => and_iff_right (hkeys s hs)

theorem scan_path_lines (ps : List String) :
    scan d (below (ps.map fun p => indent ++ pair p "1") ++ cs) =
        some (ps.map (Event.pair · "1") ++ es) ↔
      (∀ p ∈ ps, plain d p.toList = true) ∧ scan d cs = some es := by
  have hone : plain d ['1'] = true := rfl
  have hlines := @scan_pair_lines d es cs indent isBlank_indent (ps.map (·, "1"))
  simpa [hone, Function.comp_def] using hlines

theorem scan_listing (ps : List String) :
    scan d (below (listing ps) ++ cs) = some (listed ps ++ es) ↔
      (∀ p ∈ ps, plain d p.toList = true) ∧ scan d cs = some es := by
  by_cases hps : ps = []
  · subst hps
    simp [listing, listed, below]
  have hkey : plain d "LocalizationFiles".toList = true := rfl
  have hlines : below (listing ps) ++ cs = ['\n'] ++ (below ((indent ++
      ("\"" ++ "LocalizationFiles" ++ "\"")) :: (indent ++ "\x7b") :: []) ++
        (below (ps.map fun p => indent ++ pair p "1") ++ (below [indent ++ "\x7d"] ++ cs))) := by
    simp [listing, hps, below]
  have hlisted : listed ps ++ es =
      .opens "LocalizationFiles" :: (ps.map (Event.pair · "1") ++ (.closes :: es)) := by
    simp [listed, hps]
  have hcloses : scan d (below [indent ++ "\x7d"] ++ cs) = some (.closes :: es) ↔
      scan d cs = some es := by
    rw [scan_closes_line isBlank_indent, Option.map_eq_some_iff]
    simp [below]
  rw [hlines, hlisted, scan_blanks rfl, scan_opens_lines isBlank_indent hkey, ← hcloses,
    ← scan_path_lines]
  rfl

/-! ### Descriptors -/

theorem toList_text (m : ModSettings) (files : List LocalizationFile) :
    (text m files).toList = '"' :: ("mod".toList ++ '"' :: (['\n'] ++ '\x7b' ::
      (below ((settings m).map fun s => pair s.1 s.2) ++
        (below (listing (paths m files)) ++ below ["\x7d"])))) := by
  rw [text_eq, fields, List.cons_append, List.cons_append, toList_joinLines]
  simp [below, settings]

/-- The text of a descriptor is read as it should exactly if the texts in it are plain. -/
theorem scan_text_iff (m : ModSettings) (files : List LocalizationFile) :
    scan d (text m files).toList = some (content m files) ↔ Plain d m files := by
  have hkey : plain d "mod".toList = true := rfl
  have hcloses : scan d (below ["\x7d"]) = some [.closes] := rfl
  rw [toList_text, content, scan_opens_iff rfl, and_iff_right hkey, scan_setting_lines,
    scan_listing, and_iff_left hcloses]
  rfl

theorem balanced_listed (depth : Nat) (ps : List String) :
    balanced depth (listed ps ++ es) = balanced depth es := by
  by_cases hps : ps = []
  · subst hps
    rfl
  have hpairs := @balanced_pairs (.closes :: es) (depth + 1) (ps.map (·, "1"))
  simpa [listed, hps, balanced, Function.comp_def] using hpairs

theorem balanced_content (m : ModSettings) (files : List LocalizationFile) :
    balanced 0 (content m files) = true := by
  rw [content, balanced, balanced_pairs, balanced_listed]
  rfl

/-- The descriptor of a mod is read back exactly if the texts in it are plain. -/
theorem read?_text_iff (m : ModSettings) (files : List LocalizationFile) :
    read? d (text m files) = some (content m files) ↔ Plain d m files := by
  rw [read?, Option.filter_eq_some_iff, scan_text_iff]
  exact and_iff_left (balanced_content m files)

/-- The keys of the pairs up to the next start or end of a block. -/
def pairKeys : List Event → List String
  | .pair k _ :: es => k :: pairKeys es
  | _               => []

/-- The localization paths that a descriptor lists, as it is read. -/
def listedIn : List Event → List String
  | []             => []
  | .opens k :: es => if k = "LocalizationFiles" then pairKeys es else listedIn es
  | _ :: es        => listedIn es

theorem pairKeys_pairs : ∀ ps : List String,
    pairKeys (ps.map (Event.pair · "1") ++ .closes :: es) = ps
  | []      => rfl
  | p :: ps => by rw [List.map_cons, List.cons_append, pairKeys, pairKeys_pairs ps]

theorem listedIn_content (m : ModSettings) (files : List LocalizationFile) :
    listedIn (content m files) = paths m files := by
  by_cases hps : paths m files = []
  · simp [content, settings, listed, listedIn, hps]
  · simp [content, settings, listed, listedIn, hps, pairKeys_pairs]

theorem listed_injective {ps ps' : List String} (h : listed ps = listed ps') : ps = ps' := by
  unfold listed at h
  by_cases hps : ps = [] <;> by_cases hps' : ps' = [] <;> simp [hps, hps'] at h
  · rw [hps, hps']
  · exact (List.map_inj_right (by simp)).mp h

/-- What a descriptor should say determines the settings and the paths. -/
theorem settings_of_content {m m' : ModSettings} {files files' : List LocalizationFile}
    (h : content m files = content m' files') :
    settings m = settings m' ∧ paths m files = paths m' files' := by
  obtain ⟨hsettings, hrest⟩ := List.append_inj (List.cons.inj h).2 rfl
  refine ⟨(List.map_inj_right fun a b hab => ?_).mp hsettings,
    listed_injective (List.append_inj_left' hrest rfl)⟩
  exact Prod.ext (Event.pair.inj hab).1 (Event.pair.inj hab).2

/-- **A descriptor can be read back exactly if it holds plain texts only.**  The settings are
written between quotes without escapes.  Whatever a reader makes of a backslash before other
characters and of a line feed in a string, the descriptor is read as the settings and the listed
paths in their order if and only if these are plain; and plain settings that differ, or list
different paths, have different descriptors.  Texts that need no escape are plain, and none with a
quote is. -/
theorem read_back_iff_plain (d : Dialect) :
    (∀ m files, read? d (text m files) = some (content m files) ↔ Plain d m files) ∧
      (∀ m files m' files', Plain d m files → Plain d m' files' → text m files = text m' files' →
        settings m = settings m' ∧ paths m files = paths m' files') ∧
      ∀ q, ((∀ c ∈ q, c ≠ '"' ∧ c ≠ '\\' ∧ c ≠ '\n') → plain d q = true) ∧
        (plain d q = true → '"' ∉ q) := by
  refine ⟨read?_text_iff, fun m files m' files' h h' htext => settings_of_content ?_,
    fun q => ⟨plain_of_forall, quote_not_mem_of_plain⟩⟩
  have hread := (read?_text_iff m files).mpr h
  rw [htext, (read?_text_iff m' files').mpr h'] at hread
  exact (Option.some.inj hread).symm

/-- Settings without a character that needs an escape. -/
def calm : ModSettings :=
  { id := "cool_mod", name := "Cool Mod", description := "Does things", version := "2.0.0"
    author := "Jane", localizations := [⟨"loc/a.txt", true⟩, ⟨"loc/b.txt", true⟩] }

theorem read_back_iff_plain_calm : Plain ⟨.refused, false⟩ calm [] ∧
    Plain ⟨.refused, false⟩ { calm with name := "Calm" } [] ∧
    read? ⟨.refused, false⟩ (text calm []) =
      some [.opens "mod", .pair "name" "Cool Mod", .pair "id" "cool_mod",
        .pair "description" "Does things", .pair "version" "2.0.0", .pair "author" "Jane",
        .opens "LocalizationFiles", .pair "loc/a.txt" "1", .pair "loc/b.txt" "1", .closes,
        .closes] ∧
    text calm [] ≠ text { calm with name := "Calm" } [] := by
  have hcalm : Plain ⟨.refused, false⟩ calm [] := by decide
  have hother : Plain ⟨.refused, false⟩ { calm with name := "Calm" } [] := by decide
  obtain ⟨hread, honly, -⟩ := read_back_iff_plain ⟨.refused, false⟩
  refine ⟨hcalm, hother, (hread calm []).mpr hcalm, fun htext => ?_⟩
  exact absurd (honly _ _ _ _ hcalm hother htext).1 (by decide)

/-- A name in which a word is quoted. -/
def quoting : ModSettings := { name := "My \"Cool\" Mod" }

/-- The end of one setting and the start of another, with the text of a descriptor between them. -/
def spilled (left right : String) : String := left ++ "\"\n        \"id\" \"" ++ right

/-- A quoted word in a name is not read back by any reader, and settings with different names and
different ids can have the same descriptor. -/
theorem quoting_not_read_back :
    (∀ d, read? d (text quoting []) ≠ some (content quoting [])) ∧
      text { name := "a", id := spilled "b" "c" } [] =
        text { name := spilled "a" "b", id := "c" } [] := by
  refine ⟨fun d h => ?_, by decide +kernel⟩
  have hplain := ((read?_text_iff quoting []).mp h).1 ("name", "My \"Cool\" Mod") (.head _)
  exact quote_not_mem_of_plain hplain (by decide)

end VisualScript.Descriptor
