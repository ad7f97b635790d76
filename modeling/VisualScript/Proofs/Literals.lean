import VisualScript.Proofs.Escapes
import VisualScript.Script.Literal

/-!
# Proofs — Literals

String literals.  A text is written between quotes, with backslashes, quotes, line feeds and tabs
escaped; the literal ends at its own closing quote and is read as the text, whatever stands behind
it (`quote_isLiteral`).  So no text gets out of its literal, and different texts have different
literals (`string_literals`).  A payload whose whole numbers are all short can be written, unless it
is one too large for a double (`write?_eq_none_iff`).
-/

namespace VisualScript

theorem Json.isShort_arr {xs : List Json} :
    (Json.arr xs).isShort = true ↔ ∀ x ∈ xs, x.isShort = true := by
  simp only [isShort, longest, decide_eq_true_eq, itemsLongest_le]

theorem Json.isShort_obj {es : List (String × Json)} :
    (Json.obj es).isShort = true ↔ ∀ e ∈ es, e.2.isShort = true := by
  simp only [isShort, longest, decide_eq_true_eq, entriesLongest_le]

namespace Literal

/-- Reads a string literal; gives its text and what stands behind it. -/
def readString? : List Char → Option (String × List Char)
  | '"' :: cs => (Text.readQuoted? escapes cs).map fun r => (String.ofList r.1, r.2)
  | _         => none

/-- The characters are one string literal, and its text is `s`. -/
structure IsLiteral (s : String) (literal : List Char) : Prop where
  quoted  : ∃ body, literal = '"' :: (body ++ ['"'])
  /-- Behind the opening quote, only the last character is a quote that is not escaped. -/
  closed  : ∀ {before after}, literal = before ++ '"' :: after → before ≠ [] →
    (¬ Text.EndsInEscape before ↔ after = [])
  oneLine : '\n' ∉ literal ∧ '\t' ∉ literal
  /-- Whatever stands behind the literal, it is read as its text. -/
  read    : ∀ rest, readString? (literal ++ rest) = some (s, rest)

theorem escapes_faithful : Text.EscapeTable.Faithful escapes :=
  ⟨by decide, by decide, by decide⟩

theorem toList_quote (s : String) :
    (quote s).toList = '"' :: (Text.escape escapes s.toList ++ ['"']) :=
  String.toList_ofList

/-- A character that is escaped with another letter does not stand in a literal. -/
theorem not_mem_quote {c : Char} (h : c ∈ escapes.map Prod.fst) (hquote : c ≠ '"')
    (hslash : c ≠ '\\') (hletters : c ∉ escapes.map Prod.snd) (s : String) :
    c ∉ (quote s).toList := by
  have hbody := Text.not_mem_escape h hslash hletters s.toList
  simp [toList_quote, hquote, hbody]

/-- A text between quotes is one string literal. -/
theorem quote_isLiteral (s : String) : IsLiteral s (quote s).toList where
  quoted := ⟨_, toList_quote s⟩
  closed := by
    intro before after heq hne
    rw [toList_quote] at heq
    exact Text.closing_quote_iff escapes_faithful heq hne
  oneLine :=
    ⟨not_mem_quote (by decide) (by decide) (by decide) (by decide) s,
     not_mem_quote (by decide) (by decide) (by decide) (by decide) s⟩
  read := by
    intro rest
    rw [toList_quote, List.cons_append, List.append_assoc, List.singleton_append, readString?,
      Text.readQuoted?_escape escapes_faithful, Option.map_some, String.ofList_toList]

theorem quote_injective : Function.Injective quote := by
  intro s t h
  have hs := (quote_isLiteral s).read []
  rw [h, (quote_isLiteral t).read []] at hs
  exact (Prod.mk.inj (Option.some.inj hs)).1.symm

theorem write?_arr {t : ValueType} {xs : List Json} (ht : effectiveType t (.arr xs) = .array) :
    write? t (.arr xs) = (items? xs).map fun parts => "[" ++ ", ".intercalate parts ++ "]" := by
  rw [write?, if_pos ht]

theorem write?_of_not_arr {t : ValueType} {v : Json} (h : ∀ xs, v ≠ .arr xs) :
    write? t v = if isMissing t v then some (zero t) else scalar? (effectiveType t v) v := by
  cases v with
  | arr xs => exact absurd rfl (h xs)
  | _ => rw [write?]; simp

theorem write?_string (s : String) : write? .string (.str s) = some (quote s) := by
  simp [write?, isMissing, effectiveType, scalar?, Json.display?, Json.isShort, Json.longest,
    Json.display]

/-- **String literals are closed and faithful.**  The literal of a text is the text between quotes,
with its escapes made one after the other, backslashes first.  It is one string literal for the
text: its last character is the first quote behind the opening one that is not escaped, it has no
line feed and no tab, and it is read as the text whatever stands behind it.  A payload text that is
written as a string is that literal, and different texts are written differently. -/
theorem string_literals :
    (∀ s, (quote s).toList = '"' :: (Text.escapeInTurn escapes s.toList ++ ['"']) ∧
      IsLiteral s (quote s).toList ∧ write? .string (.str s) = some (quote s)) ∧
    Function.Injective fun s => write? .string (.str s) := by
  refine ⟨fun s => ⟨?_, quote_isLiteral s, write?_string s⟩, fun s t h => ?_⟩
  · rw [Text.escapeInTurn_eq (by decide), toList_quote]
  · simp only [write?_string] at h
    exact quote_injective (Option.some.inj h)

-- a backslash before a letter, a line feed and a quote
example : quote "\\n\n\"" = "\"\\\\n\\n\\\"\"" := by decide

/-! ### Payloads without a literal -/

variable {v : Json} {t : ValueType}

/-- The payload is a whole number too large for a double. -/
def TooLarge (v : Json) : Prop := ∃ i, v = .int i ∧ (Binary64.ofInt i).isFinite = false

/-- A short number fails only if it is a whole one, too large for the double it is asked for as. -/
theorem number?_eq_none_iff {asFloat : Bool} (h : v.isShort = true) :
    number? asFloat v = none ↔ asFloat = true ∧ TooLarge v := by
  cases v <;> cases asFloat <;> simp [number?, TooLarge, Json.display?, h, ite_eq_iff]

theorem coordinates?_ne_none {x y z : Json} (hx : x.isShort = true) (hy : y.isShort = true)
    (hz : z.isShort = true) : coordinates? [x, y, z] ≠ none := by
  have hsome : ∀ {v : Json}, v.isShort = true → ∃ s, number? false v = some s := fun h =>
    Option.ne_none_iff_exists'.mp (by simp [number?_eq_none_iff h])
  obtain ⟨a, ha⟩ := hsome hx
  obtain ⟨b, hb⟩ := hsome hy
  obtain ⟨c, hc⟩ := hsome hz
  simp [coordinates?, ha, hb, hc]

theorem vector?_ne_none (h : v.isShort = true) : vector? v ≠ none := by
  unfold vector?
  split
  case h_1 es =>
    have haxis : ∀ axis, ((es.lookup axis).getD (.int 0)).isShort = true := by
      intro axis
      cases hv : es.lookup axis with
      | none => decide
      | some v => exact Json.isShort_obj.mp h _ (Assoc.mem_of_lookup hv)
    exact coordinates?_ne_none (haxis "x") (haxis "y") (haxis "z")
  case h_2 x y z =>
    have hitems := Json.isShort_arr.mp h
    exact coordinates?_ne_none (hitems x (by simp)) (hitems y (by simp)) (hitems z (by simp))
  case h_3 => simp [Json.display?, h]

/-- Where a whole number is asked for, a whole double is written as one. -/
theorem scalar?_int_cases (v : Json) :
    (∃ i : Int, scalar? .int v = some (toString i)) ∨ scalar? .int v = number? false v := by
  unfold scalar?
  dsimp only
  split
  case h_1 x =>
    split
    case h_1 i _ => exact .inl ⟨i, rfl⟩
    case h_2 => exact .inr rfl
  case h_2 => exact .inr rfl

theorem scalar?_eq_none_iff (hv : v.isShort = true) :
    scalar? t v = none ↔ t = .float ∧ TooLarge v := by
  cases t with
  | float => simp [scalar?, number?_eq_none_iff hv]
  | int =>
    rcases scalar?_int_cases v with ⟨i, h⟩ | h
    · simp [h]
    · simp [h, number?_eq_none_iff hv]
  | number => simp [scalar?, number?_eq_none_iff hv]
  | vector => simp [scalar?, vector?_ne_none hv]
  | _ => simp [scalar?, Json.display?, hv]

/-- A type that leaves the type of a payload open asks for no double. -/
theorem effectiveType_int {i : Int} : effectiveType t (.int i) = .float ↔ t = .float := by
  cases t <;> simp [effectiveType, infer]

mutual

/-- Of the payloads without long numbers, only a whole number too large for a double cannot be
written, where a double is asked for. -/
theorem write?_eq_none_iff : ∀ (t : ValueType) (v : Json), v.isShort = true →
    (write? t v = none ↔ t = .float ∧ TooLarge v)
  | t, .arr xs, h => by
    by_cases ht : effectiveType t (.arr xs) = .array
    · simp [write?_arr ht, items?_ne_none xs (Json.isShort_arr.mp h), TooLarge]
    · rw [write?, if_neg ht, scalar?_eq_none_iff h]
      simp [TooLarge]
  | t, .int i, h => by
    rw [write?_of_not_arr (by simp), if_neg (by simp [isMissing]), scalar?_eq_none_iff h,
      effectiveType_int]
  | t, .null, h | t, .bool _, h | t, .float _, h | t, .str _, h | t, .obj _, h => by
    rw [write?_of_not_arr (by simp)]
    split <;> simp [scalar?_eq_none_iff h, TooLarge]

theorem items?_ne_none : ∀ xs : List Json, (∀ x ∈ xs, x.isShort = true) → items? xs ≠ none
  | [], _ => by simp [items?]
  | x :: xs, h => by
    obtain ⟨hx, hxs⟩ := List.forall_mem_cons.mp h
    have hsome : write? .any x ≠ none := by simp [write?_eq_none_iff .any x hx]
    obtain ⟨s, hs⟩ := Option.ne_none_iff_exists'.mp hsome
    obtain ⟨rest, hrest⟩ := Option.ne_none_iff_exists'.mp (items?_ne_none xs hxs)
    simp [items?, hs, hrest]

end

end Literal

end VisualScript
