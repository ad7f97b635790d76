import VisualScript.Proofs.Numerals
import VisualScript.Proofs.Literals

/-!
# Proofs — Blanks

No literal is blank, whatever the payload and the type (`literals_not_blank`).  A payload that is
missing is written as the zero of its type; every other literal shows a quote, a bracket, a digit, a
word, or a payload text that is not blank itself.  A payload has no literal only if it is a whole
number too large for the double it is asked for as, or if it holds one with too many digits.
-/

namespace VisualScript

/-! ### Blank texts -/

namespace Text

@[simp] theorem isBlankText_append (s t : String) :
    isBlankText (s ++ t) = (isBlankText s && isBlankText t) := by
  rw [isBlankText, String.toList_append, List.all_append, isBlankText, isBlankText]

theorem isBlankText_eq_false {s : String} {c : Char} (hc : c ∈ s.toList)
    (h : isBlank c = false) : isBlankText s = false :=
  List.all_eq_false.mpr ⟨c, hc, Bool.eq_false_iff.mp h⟩

theorem isBlank_of_isDigit {c : Char} (h : Number.isDigit c = true) : isBlank c = false := by
  obtain ⟨hlow, hhigh⟩ : 48 ≤ c.toNat ∧ c.toNat ≤ 57 := by
    simpa [Number.isDigit, Char.le_def, UInt32.le_iff_toNat_le] using h
  simp only [isBlank, blankRanges, inRanges, Bool.or_false, Bool.if_false_left,
    Bool.and_eq_false_imp, Bool.not_eq_eq_eq_not, Bool.not_true, decide_eq_false_iff_not, not_lt,
    Bool.or_eq_false_iff, not_le]
  omega

end Text

open Text (isBlankText isBlankText_eq_false)

/-! ### Numbers -/

theorem toString_int_not_blank (i : Int) : isBlankText (toString i) = false := by
  obtain ⟨c, cs, hcons, hc⟩ := (whole_toDigits i.natAbs).exists_cons
  refine isBlankText_eq_false (c := c) ?_ (Text.isBlank_of_isDigit hc)
  rw [toList_toString_int, hcons]
  split <;> simp

/-- A decimal has a point or an exponent in it. -/
theorem Layout.mem_decimal (l : Layout) (d : Decimal) : '.' ∈ l.decimal d ∨ 'e' ∈ l.decimal d := by
  rw [decimal]
  split
  · rw [positional]
    split <;> simp
  · unfold scientific
    simp

theorem Layout.write?_not_blank {l : Layout} {x : Binary64} {s : String}
    (h : l.write? x = some s) : isBlankText s = false := by
  cases x with
  | infinite s => cases h
  | nan => cases h
  | finite negative m e =>
    obtain rfl := Option.some.inj h
    obtain ⟨c, hc, hblank⟩ : ∃ c ∈ if m = 0 then ['0', '.', '0'] else l.decimal (.shortest m e),
        Text.isBlank c = false := by
      split
      · exact ⟨'.', by simp, rfl⟩
      · rcases l.mem_decimal (.shortest m e) with h | h
        · exact ⟨_, h, rfl⟩
        · exact ⟨_, h, rfl⟩
    refine isBlankText_eq_false ?_ hblank
    rw [String.toList_ofList]
    split
    · exact List.mem_cons_of_mem _ hc
    · exact hc

theorem Json.Display.float_not_blank (x : Binary64) : isBlankText (float x) = false := by
  unfold float
  split
  case h_1 s _ h => exact Layout.write?_not_blank h
  all_goals rfl

theorem Literal.finite_not_blank (x : Binary64) : isBlankText (finite x) = false := by
  rw [finite]
  split
  · simp [show isBlankText ".0" = false from rfl]
  · exact Json.Display.float_not_blank x

/-! ### Payloads as they stand -/

theorem Json.Display.quoted_not_blank (s : String) : isBlankText (quoted s) = false := by
  rw [quoted]
  refine isBlankText_eq_false (c := if s.toList.contains '\'' && !s.toList.contains '"' then '"'
    else '\'') ?_ ?_
  · simp
  · split <;> rfl

theorem Json.Display.inner_not_blank (v : Json) : isBlankText (inner v) = false := by
  cases v with
  | null => rfl
  | bool b => cases b <;> rfl
  | int i => exact toString_int_not_blank i
  | float x => exact float_not_blank x
  | str s => exact quoted_not_blank s
  | arr xs => simp [inner, show isBlankText "[" = false from rfl]
  | obj es => simp [inner, show isBlankText "\x7b" = false from rfl]

/-- A payload that stands for itself is blank only if it is a blank text. -/
theorem Json.display_blank_iff (v : Json) :
    isBlankText v.display = true ↔ ∃ s, v = .str s ∧ isBlankText s = true := by
  cases v with
  | str s => simp [display]
  | _ => simp [display, Display.inner_not_blank]

theorem Json.eq_display {v : Json} {text : String} (h : v.display? = some text) :
    text = v.display := by
  simp only [display?, Option.ite_none_right_eq_some, Option.some.injEq] at h
  exact h.2.symm

/-! ### Literals -/

namespace Literal

variable {v : Json} {text : String} {t : ValueType}

theorem zero_not_blank (t : ValueType) : isBlankText (zero t) = false := by
  cases t <;> rfl

theorem quote_not_blank (s : String) : isBlankText (quote s) = false :=
  isBlankText_eq_false (c := '"') (by simp [toList_quote]) rfl

theorem number?_not_blank {asFloat : Bool} (h : number? asFloat v = some text) :
    isBlankText text = false := by
  have hzero : isBlankText (if asFloat then "0.0" else "0") = false := by cases asFloat <;> rfl
  cases v with
  | bool b =>
    obtain rfl := Option.some.inj h
    cases b <;> rfl
  | int i =>
    rw [number?] at h
    split at h
    · simp only [Option.ite_none_right_eq_some] at h
      obtain rfl := Option.some.inj h.2
      exact finite_not_blank _
    · rw [Json.eq_display h]
      exact toString_int_not_blank i
  | float x =>
    obtain rfl := Option.some.inj h
    split
    · exact finite_not_blank x
    · exact hzero
  | str s =>
    simp only [number?] at h
    split at h
    · exact Option.some.inj h ▸ hzero
    case isFalse hs =>
      rw [Json.eq_display h]
      exact Bool.eq_false_iff.mpr hs
  | null | arr xs | obj es =>
    simp only [number?] at h
    split at h
    · exact Option.some.inj h ▸ hzero
    · rw [Json.eq_display h]
      exact Json.Display.inner_not_blank _

theorem coordinates?_not_blank {parts : List Json} (h : coordinates? parts = some text) :
    isBlankText text = false := by
  obtain ⟨parts, -, rfl⟩ := Option.map_eq_some_iff.mp h
  simp [show isBlankText "<" = false from rfl]

theorem vector?_not_blank (h : vector? v = some text) (hv : isBlankText v.display = false) :
    isBlankText text = false := by
  unfold vector? at h
  split at h
  · exact coordinates?_not_blank h
  · exact coordinates?_not_blank h
  · exact Json.eq_display h ▸ hv

/-- A payload that is written as a text or an asset, or that is not blank itself, has a literal that
is not blank. -/
theorem scalar?_not_blank (h : scalar? t v = some text)
    (hv : isBlankText v.display = false ∨ t = .string ∨ t = .asset) : isBlankText text = false := by
  cases t with
  | string =>
    obtain ⟨s, -, rfl⟩ := Option.map_eq_some_iff.mp h
    exact quote_not_blank _
  | asset =>
    obtain ⟨s, -, rfl⟩ := Option.map_eq_some_iff.mp h
    split
    case isTrue hstart =>
      obtain ⟨rest, hrest⟩ := String.startsWith_string_iff.mp hstart
      exact isBlankText_eq_false (c := '$') (by simp [← hrest]) rfl
    case isFalse => simp [show isBlankText "$\"" = false from rfl]
  | bool =>
    obtain rfl := Option.some.inj h
    split <;> rfl
  | int =>
    rcases scalar?_int_cases v with ⟨i, hi⟩ | hi
    · obtain rfl := Option.some.inj (hi.symm.trans h)
      exact toString_int_not_blank i
    · exact number?_not_blank (hi.symm.trans h)
  | float => exact number?_not_blank h
  | number => exact number?_not_blank h
  | vector => exact vector?_not_blank h (by simpa using hv)
  | _ =>
    rw [Json.eq_display h]
    simpa using hv

/-! ### Every payload under every type -/

/-- A payload that is not missing is written as a text or an asset, or it is not blank itself. -/
theorem display_of_not_missing (h : isMissing t v = false) :
    isBlankText v.display = false ∨ effectiveType t v = .string ∨ effectiveType t v = .asset := by
  by_cases hblank : isBlankText v.display = true
  · obtain ⟨s, rfl, hs⟩ := v.display_blank_iff.mp hblank
    simp only [isMissing, hs, Bool.true_and, Bool.and_eq_false_iff, bne_eq_false_iff_eq] at h
    rcases h with rfl | rfl
    · exact .inr (.inl rfl)
    · exact .inr (.inr rfl)
  · exact .inl (Bool.eq_false_iff.mpr hblank)

theorem write?_not_blank (h : write? t v = some text) : isBlankText text = false := by
  by_cases harr : ∃ xs, v = .arr xs
  · obtain ⟨xs, rfl⟩ := harr
    by_cases ht : effectiveType t (.arr xs) = .array
    · rw [write?_arr ht] at h
      obtain ⟨parts, -, rfl⟩ := Option.map_eq_some_iff.mp h
      simp [show isBlankText "[" = false from rfl]
    · rw [write?, if_neg ht] at h
      exact scalar?_not_blank h (display_of_not_missing rfl)
  · rw [write?_of_not_arr (not_exists.mp harr)] at h
    split at h
    · obtain rfl := Option.some.inj h
      exact zero_not_blank t
    case isFalse hmissing =>
      exact scalar?_not_blank h (display_of_not_missing (Bool.eq_false_iff.mpr hmissing))

theorem write?_of_missing (h : isMissing t v = true) : write? t v = some (zero t) := by
  rw [write?_of_not_arr, if_pos h]
  rintro xs rfl
  cases h

end Literal

/-- A type other than the open one has one spelling. -/
theorem ValueType.ofName_eq_iff {tag : Option String} {t : ValueType} (ht : t ≠ .any) :
    ofName tag = t ↔ tag = some t.name := by
  constructor
  · rintro rfl
    cases tag with
    | none => exact absurd rfl ht
    | some name =>
      cases hfind : all.find? (·.name == name) with
      | none => exact absurd (by rw [ofName, hfind]; rfl) ht
      | some t =>
        have hname : t.name = name := by simpa using List.find?_some hfind
        rw [ofName, hfind, Option.getD_some, hname]
  · rintro rfl
    cases t <;> rfl

namespace Literal

/-- The payload says nothing under a type of the given spelling: it is null, a double that is not
finite, or a blank text that is not asked for as a text or an asset. -/
inductive Vacant (tag : Option String) : Json → Prop where
  | null : Vacant tag .null
  | float {x : Binary64} (infinite : x.isFinite = false) : Vacant tag (.float x)
  | text {s : String} (blank : isBlankText s = true) (string : tag ≠ some "string")
      (asset : tag ≠ some "asset") : Vacant tag (.str s)

/-- **Literals are never blank.**  For every payload and every spelling of a type, known or not, or
none at all: if no whole number in the payload has too many digits, there is a literal unless the
payload is one too large for the double it is asked for as; a literal is never a text of white
space; and a payload that says nothing is written as the zero of the type. -/
theorem literals_not_blank (tag : Option String) (v : Json) :
    (v.isShort = true →
      (write? (.ofName tag) v = none ↔ tag = some "float" ∧ TooLarge v)) ∧
    (∀ text, write? (.ofName tag) v = some text → isBlankText text = false) ∧
    (Vacant tag v → write? (.ofName tag) v = some (zero (.ofName tag))) := by
  refine ⟨fun hshort => ?_, fun text => write?_not_blank, fun h => write?_of_missing ?_⟩
  · rw [write?_eq_none_iff _ _ hshort, ValueType.ofName_eq_iff (by decide)]
    rfl
  · cases h with
    | null => rfl
    | float infinite => simp [isMissing, infinite]
    | text blank string asset =>
      have hstring := mt (ValueType.ofName_eq_iff (t := .string) (by decide)).mp string
      have hasset := mt (ValueType.ofName_eq_iff (t := .asset) (by decide)).mp asset
      simp [isMissing, blank, hstring, hasset]

theorem literals_not_blank_gaps :
    Vacant (some "vector") (.str "\t ") ∧
      write? (.ofName (some "vector")) (.str "\t ") = some "<0, 0, 0>" ∧
      (Json.int (10 ^ 309)).isShort = true ∧
      write? (.ofName (some "float")) (.int (10 ^ 309)) = none ∧
      ∀ text, write? (.ofName none) (.arr [.null, .str ""]) = some text →
        isBlankText text = false := by
  have hvacant : Vacant (some "vector") (.str "\t ") := .text (by decide) (by decide) (by decide)
  have hshort : (Json.int (10 ^ 309)).isShort = true := by decide +kernel
  have hlarge : TooLarge (.int (10 ^ 309)) := ⟨_, rfl, by decide +kernel⟩
  exact ⟨hvacant, (literals_not_blank _ _).2.2 hvacant, hshort,
    ((literals_not_blank _ _).1 hshort).mpr ⟨rfl, hlarge⟩, (literals_not_blank _ _).2.1⟩

end Literal

end VisualScript
