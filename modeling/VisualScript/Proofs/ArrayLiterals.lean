import VisualScript.Proofs.JsonText
import VisualScript.Proofs.Literals

/-!
# Proofs — Array literals

Arrays of texts, whole numbers, truth values and arrays of these.  Their literals are read back by a
reader of string literals, decimal numbers, words and brackets (`read?`).  A text of white space in
an array counts as an empty field, so `null` is written for it; everything else comes back as it was
(`nulled`).

* `Simple.written`: every such payload without long numbers is written, and its literal is read as
  the payload with null in place of its blank texts, whatever stands behind it.
* `Simple.write?_long`: a payload with a long number is not written.
* `array_literals`: so an array that is written comes back exactly if it holds no blank text, and two
  arrays have one literal exactly if they differ in blank texts only.
-/

namespace VisualScript.Literal

open Json (closed_cons)
open Json.Reader (spanDigits)
open Number (digitsValue)

/-! ### Payloads -/

/-- A payload of texts, whole numbers and truth values, in arrays of any depth. -/
inductive Simple : Json → Prop where
  | str (s : String) : Simple (.str s)
  | int (i : Int) : Simple (.int i)
  | bool (b : Bool) : Simple (.bool b)
  | arr {xs : List Json} (items : ∀ x ∈ xs, Simple x) : Simple (.arr xs)

/-- A text stands in a payload, at any depth. -/
inductive Holds (s : String) : Json → Prop where
  | here : Holds s (.str s)
  | inside {x : Json} {xs : List Json} (mem : x ∈ xs) (holds : Holds s x) : Holds s (.arr xs)

mutual

/-- The payload with null in place of every blank text. -/
def nulled : Json → Json
  | .str s  => if Text.isBlankText s then .null else .str s
  | .arr xs => .arr (nulledItems xs)
  | v       => v

def nulledItems : List Json → List Json
  | []      => []
  | x :: xs => nulled x :: nulledItems xs

end

/-! ### The reader -/

/-- The words that stand for a value. -/
def words : List (String × Json) := [("true", .bool true), ("false", .bool false), ("null", .null)]

def readWord? (cs : List Char) : Option (Json × List Char) :=
  words.findSome? fun w =>
    if w.1.toList.isPrefixOf cs then some (w.2, cs.drop w.1.length) else none

/-- Reads a whole number in decimal digits. -/
def readWhole? (cs : List Char) : Option (Json × List Char) :=
  let negative := cs.head? == some '-'
  let (ds, rest) := spanDigits (if negative then cs.tail else cs)
  if ds.isEmpty then none
  else some (.int (if negative then -digitsValue ds else digitsValue ds), rest)

mutual

/-- Reads one literal; gives its value and what stands behind it. -/
def readValue? : (fuel : Nat) → List Char → Option (Json × List Char)
  | 0,        _                => none
  | _ + 1,    '[' :: ']' :: cs => some (.arr [], cs)
  | fuel + 1, '[' :: cs        => (readItems? fuel cs).map fun r => (.arr r.1, r.2)
  | _ + 1,    '"' :: cs        => (readString? ('"' :: cs)).map fun r => (.str r.1, r.2)
  | _ + 1,    cs               => (readWord? cs).or (readWhole? cs)

/-- Reads the elements of an array that is not empty, up to its closing bracket. -/
def readItems? : (fuel : Nat) → List Char → Option (List Json × List Char)
  | 0,        _  => none
  | fuel + 1, cs => do
      let (x, cs) ← readValue? fuel cs
      match cs with
      | ']' :: cs        => return ([x], cs)
      | ',' :: ' ' :: cs =>
          let (xs, cs) ← readItems? fuel cs
          return (x :: xs, cs)
      | _ => none

end

/-- The value of a text that is one literal. -/
def read? (text : String) : Option Json := do
  let (v, rest) ← readValue? (2 * text.length + 1) text.toList
  if rest.isEmpty then some v else none

/-! ### Blank texts -/

theorem nulledItems_eq_map (xs : List Json) : nulledItems xs = xs.map nulled := by
  induction xs with
  | nil => rfl
  | cons x xs ih => rw [nulledItems, ih, List.map_cons]

/-- A payload stays as it is exactly if it holds no blank text. -/
theorem Simple.nulled_eq_iff {v : Json} (h : Simple v) :
    nulled v = v ↔ ∀ s, Holds s v → Text.isBlankText s = false := by
  induction h with
  | str s =>
    rw [nulled]
    constructor
    · rintro heq _ ⟨⟩
      by_contra hblank
      rw [if_pos (by simpa using hblank)] at heq
      cases heq
    · intro hs
      rw [hs s .here]
      rfl
  | int i =>
    refine iff_of_true (by rw [nulled] <;> simp) ?_
    rintro s ⟨⟩
  | bool b =>
    refine iff_of_true (by rw [nulled] <;> simp) ?_
    rintro s ⟨⟩
  | @arr xs _ ih =>
    have hself : xs.map nulled = xs ↔ ∀ x ∈ xs, nulled x = x := by
      simpa using List.map_inj_left (f := nulled) (g := id) (l := xs)
    rw [nulled, nulledItems_eq_map, Json.arr.injEq, hself]
    constructor
    · rintro hxs s (_ | ⟨hmem, hs⟩)
      exact (ih _ hmem).mp (hxs _ hmem) s hs
    · intro hs x hx
      exact (ih x hx).mpr fun s hin => hs s (.inside hx hin)

/-! ### Reading back -/

variable {fuel : Nat} {rest : List Char}

theorem readValue?_string (s : String) (rest : List Char) :
    readValue? (fuel + 1) ((quote s).toList ++ rest) = some (.str s, rest) := by
  have hread := (quote_isLiteral s).read rest
  rw [toList_quote, List.cons_append] at hread ⊢
  rw [readValue?, hread]
  rfl

theorem readValue?_bool (b : Bool) (rest : List Char) :
    readValue? (fuel + 1) ((if b then "true" else "false").toList ++ rest) =
      some (.bool b, rest) := by
  cases b <;> rfl

theorem readValue?_null (rest : List Char) :
    readValue? (fuel + 1) ("null".toList ++ rest) = some (.null, rest) := rfl

/-- A number starts with a digit or a sign, so it is no word, no text and no array. -/
theorem readValue?_number {c : Char} (h : c = '-' ∨ Number.isDigit c = true) (cs : List Char) :
    readValue? (fuel + 1) (c :: cs) = readWhole? (c :: cs) := by
  have hne : ∀ d, d ∈ ['[', '"', 't', 'f', 'n'] → c ≠ d := by
    intro d hd
    rcases h with rfl | h
    · rintro rfl
      simp at hd
    · refine ne_of_isDigit h ?_
      simp only [List.mem_cons, List.not_mem_nil, or_false] at hd
      rcases hd with rfl | rfl | rfl | rfl | rfl <;> rfl
  have hword : readWord? (c :: cs) = none := by
    simp [readWord?, words, hne 't', hne 'f', hne 'n', Ne.symm]
  rw [readValue?, hword, Option.none_or]
  all_goals simp [hne]

theorem readValue?_int (i : Int) (h : Closed rest) :
    readValue? (fuel + 1) ((toString i).toList ++ rest) = some (.int i, rest) := by
  obtain ⟨c, cs, hcons, hc⟩ := (whole_toDigits i.natAbs).exists_cons
  have hspan : spanDigits (Nat.toDigits 10 i.natAbs ++ rest) = (Nat.toDigits 10 i.natAbs, rest) :=
    spanDigits_append (whole_toDigits i.natAbs).digits h.not_digit
  have hsome : (Nat.toDigits 10 i.natAbs).isEmpty = false := by rw [hcons]; rfl
  rw [toList_toString_int]
  split
  case isTrue hneg =>
    rw [List.cons_append, readValue?_number (.inl rfl), readWhole?]
    simp only [List.head?_cons, beq_self_eq_true, if_true, List.tail_cons, hspan, hsome,
      Number.digitsValue_toDigits, Bool.false_eq_true, if_false]
    rw [Int.ofNat_natAbs_of_nonpos hneg.le, Int.neg_neg]
  case isFalse hpos =>
    have hsign : (some c == some '-') = false := by
      simpa using ne_of_isDigit (d := '-') hc rfl
    rw [hcons, List.cons_append, readValue?_number (.inr hc), readWhole?]
    rw [hcons, List.cons_append] at hspan
    rw [hcons] at hsome
    simp only [List.head?_cons, hsign, Bool.false_eq_true, if_false, hspan, hsome]
    rw [← hcons, Number.digitsValue_toDigits, Int.natAbs_of_nonneg (not_lt.mp hpos)]

/-- A payload is written, and its literal is read as the payload with null in place of its blank
texts, whatever stands behind it. -/
structure Written (v : Json) (text : String) : Prop where
  write : write? .any v = some text
  start : ∃ c cs, text.toList = c :: cs ∧ c ≠ ']'
  read  : ∀ fuel rest, Closed rest → 2 * text.length ≤ fuel →
    readValue? fuel (text.toList ++ rest) = some (nulled v, rest)

theorem length_intercalate_cons_cons (part next : String) (parts : List String) :
    (", ".intercalate (part :: next :: parts)).length =
      part.length + 2 + (", ".intercalate (next :: parts)).length := by
  rw [String.intercalate_cons_cons, String.length_append, String.length_append]
  rfl

theorem toList_intercalate_cons_cons (part next : String) (parts : List String) :
    (", ".intercalate (part :: next :: parts)).toList =
      part.toList ++ ',' :: ' ' :: (", ".intercalate (next :: parts)).toList := by
  rw [String.intercalate_cons_cons, String.toList_append, String.toList_append, List.append_assoc]
  rfl

/-- The elements of an array, one after the other. -/
theorem readItems?_written {xs : List Json} {parts : List String}
    (h : List.Forall₂ Written xs parts) (hne : xs ≠ []) (rest : List Char) :
    2 * (", ".intercalate parts).length < fuel →
      readItems? fuel ((", ".intercalate parts).toList ++ ']' :: rest) =
        some (nulledItems xs, rest) := by
  induction h generalizing fuel with
  | nil => exact absurd rfl hne
  | @cons x part xs parts hx hxs ih =>
    intro hfuel
    obtain ⟨fuel, rfl⟩ := Nat.exists_eq_succ_of_ne_zero (Nat.ne_zero_of_lt hfuel)
    cases hxs with
    | nil =>
      rw [String.intercalate_singleton] at hfuel ⊢
      have hread := hx.read fuel (']' :: rest) (closed_cons (by simp) _) (by omega)
      simp only [readItems?, hread, bind, Option.bind]
      rfl
    | @cons y next xs parts hy hxs =>
      rw [length_intercalate_cons_cons] at hfuel
      have hread := hx.read fuel
        (',' :: ' ' :: ((", ".intercalate (next :: parts)).toList ++ ']' :: rest))
        (closed_cons (by simp) _) (by omega)
      have hmore := ih (List.cons_ne_nil _ _) (show _ < fuel by omega)
      rw [toList_intercalate_cons_cons, List.append_assoc, List.cons_append, List.cons_append]
      simp only [readItems?, hread, hmore, bind, Option.bind]
      rfl

/-- A text in an array is a string literal, or null if it is blank. -/
theorem write?_text (s : String) :
    write? .any (.str s) = some (if Text.isBlankText s then "null" else quote s) := by
  cases h : Text.isBlankText s <;>
    simp [write?, isMissing, effectiveType, infer, scalar?, zero, Json.display?, Json.isShort,
      Json.longest, Json.display, h]

/-- The literal of an array, given those of its elements. -/
theorem Written.arr {xs : List Json} {parts : List String} (h : List.Forall₂ Written xs parts) :
    Written (.arr xs) ("[" ++ ", ".intercalate parts ++ "]") where
  write := by
    have hitems : items? xs = some parts := by
      induction h with
      | nil => rfl
      | cons hx _ ih => rw [items?, hx.write, ih]; rfl
    rw [write?_arr rfl, hitems]
    rfl
  start := ⟨'[', _, by rw [String.toList_append, String.toList_append]; rfl, by decide⟩
  read := by
    intro fuel rest _ hfuel
    have hlength : ("[" ++ ", ".intercalate parts ++ "]").length =
        (", ".intercalate parts).length + 2 := by
      rw [String.length_append, String.length_append, show "[".length = 1 from rfl,
        show "]".length = 1 from rfl]
      omega
    have htext : ("[" ++ ", ".intercalate parts ++ "]").toList ++ rest =
        '[' :: ((", ".intercalate parts).toList ++ ']' :: rest) := by
      rw [String.toList_append, String.toList_append, List.append_assoc]
      rfl
    obtain ⟨fuel, rfl⟩ := Nat.exists_eq_succ_of_ne_zero (show fuel ≠ 0 by omega)
    rw [htext, nulled]
    cases h with
    | nil => rfl
    | @cons x part xs parts hx hxs =>
      obtain ⟨c, cs, hstart, hc⟩ := hx.start
      have hitems := readItems?_written (.cons hx hxs) (List.cons_ne_nil _ _) rest
        (show _ < fuel by omega)
      have hhead : ∃ cs, (", ".intercalate (part :: parts)).toList ++ ']' :: rest = c :: cs := by
        cases hxs with
        | nil => exact ⟨_, by rw [String.intercalate_singleton, hstart]; rfl⟩
        | cons => exact ⟨_, by rw [toList_intercalate_cons_cons, hstart]; rfl⟩
      obtain ⟨cs', hcs⟩ := hhead
      rw [hcs] at hitems ⊢
      rw [readValue?, hitems]
      · rfl
      · rintro cs'' hcons
        exact hc (List.cons.inj hcons).1

/-- **Every simple payload without long numbers is written**, and read as itself but for its blank
texts. -/
theorem Simple.written {v : Json} (h : Simple v) (hshort : v.isShort = true) :
    ∃ text, Written v text := by
  -- a literal takes up at least one character, so there is fuel to read it
  have hpos {text : String} {c : Char} {cs : List Char} (hcons : text.toList = c :: cs) {fuel : Nat}
      (hfuel : 2 * text.length ≤ fuel) : ∃ n, fuel = n + 1 := by
    refine Nat.exists_eq_succ_of_ne_zero ?_
    rw [← String.length_toList, hcons, List.length_cons] at hfuel
    omega
  induction h with
  | str s =>
    refine ⟨_, write?_text s, ?_, ?_⟩
    · split
      · exact ⟨'n', _, rfl, by decide⟩
      · exact ⟨'"', _, toList_quote s, by decide⟩
    · intro fuel rest _ hfuel
      rw [nulled]
      split
      case isTrue hblank =>
        rw [if_pos hblank] at hfuel
        obtain ⟨fuel, rfl⟩ := hpos rfl hfuel
        exact readValue?_null rest
      case isFalse hblank =>
        rw [if_neg hblank] at hfuel
        obtain ⟨fuel, rfl⟩ := hpos (toList_quote s) hfuel
        exact readValue?_string s rest
  | int i =>
    obtain ⟨c, cs, hcons, hc⟩ := Json.int_head i
    refine ⟨toString i, if_pos hshort, ⟨c, cs, hcons, ?_⟩, ?_⟩
    · rintro rfl
      exact hc.2 (by simp)
    · intro fuel rest hrest hfuel
      obtain ⟨fuel, rfl⟩ := hpos hcons hfuel
      exact readValue?_int i hrest
  | bool b =>
    refine ⟨if b then "true" else "false", rfl, ?_, ?_⟩
    · cases b
      · exact ⟨'f', _, rfl, by decide⟩
      · exact ⟨'t', _, rfl, by decide⟩
    · intro fuel rest _ hfuel
      obtain ⟨fuel, rfl⟩ : ∃ n, fuel = n + 1 := by
        cases b
        · exact hpos rfl hfuel
        · exact hpos rfl hfuel
      exact readValue?_bool b rest
  | @arr xs _ ih =>
    choose! text htext using fun x hx => ih x hx (Json.isShort_arr.mp hshort x hx)
    exact ⟨_, .arr (List.forall₂_map_right_iff.mpr (List.forall₂_same.mpr htext))⟩

theorem Written.read_eq {v : Json} {text : String} (h : Written v text) :
    read? text = some (nulled v) := by
  have hread := h.read (2 * text.length + 1) [] (by simp [Closed]) (Nat.le_succ _)
  rw [List.append_nil] at hread
  simp [read?, hread]

theorem items?_eq_none {x : Json} {xs : List Json} (hx : x ∈ xs) (h : write? .any x = none) :
    items? xs = none := by
  induction hx with
  | head => simp [items?, h]
  | tail y _ ih => cases hy : write? .any y <;> simp [items?, hy, ih]

/-- A simple payload with a long number is not written. -/
theorem Simple.write?_long {v : Json} (h : Simple v) (hlong : v.isShort = false) :
    write? .any v = none := by
  induction h with
  | str s => cases hlong
  | int i => exact if_neg (Bool.eq_false_iff.mp hlong)
  | bool b => cases hlong
  | @arr xs _ ih =>
    obtain ⟨x, hx, hlong⟩ : ∃ x ∈ xs, x.isShort = false := by
      by_contra hall
      refine Bool.eq_false_iff.mp hlong (Json.isShort_arr.mpr fun x hx => ?_)
      by_contra hx'
      exact hall ⟨x, hx, Bool.eq_false_iff.mpr hx'⟩
    rw [write?_arr rfl, items?_eq_none hx (ih x hx hlong), Option.map_none]

theorem items?_map_congr {f : Json → Json} {xs : List Json}
    (h : ∀ x ∈ xs, write? .any (f x) = write? .any x) : items? (xs.map f) = items? xs := by
  induction xs with
  | nil => rfl
  | cons x xs ih =>
    obtain ⟨hx, hxs⟩ := List.forall_mem_cons.mp h
    rw [List.map_cons, items?, items?, hx, ih hxs]

/-- Null is written like a blank text. -/
theorem Simple.write?_nulled {v : Json} (h : Simple v) :
    write? .any (nulled v) = write? .any v := by
  induction h with
  | str s =>
    rw [nulled]
    split
    case isTrue hblank =>
      rw [write?_text, if_pos hblank]
      rfl
    case isFalse => rfl
  | int i => rw [nulled] <;> simp
  | bool b => rw [nulled] <;> simp
  | arr _ ih =>
    rw [nulled, nulledItems_eq_map, write?_arr rfl, write?_arr rfl, items?_map_congr ih]

/-- What stands for an element of an array. -/
structure ElementText (x : Json) (part : String) : Prop where
  /-- A text is a string literal for itself unless it is blank. -/
  text  : ∀ s, x = .str s → if Text.isBlankText s then part = "null" else IsLiteral s part.toList
  /-- An array inside another one is written like any array. -/
  array : ∀ ys, x = .arr ys → write? .array x = some part

/-- **Array literals keep their elements, except for blank texts.**  An array of texts, whole
numbers, truth values and such arrays is written exactly if no number in it, at any depth, has too
many digits: between brackets, with its elements one after the other.  The literal is read as the
array with null in place of its blank texts.  So it is read as the array itself exactly if no text
in it is blank, and another array has the same literal exactly if the two differ in blank texts
only. -/
theorem array_literals {xs : List Json} (h : Simple (.arr xs)) :
    (write? .array (.arr xs) = none ↔ (Json.arr xs).isShort = false) ∧
    ((Json.arr xs).isShort = true → ∃ parts text, write? .array (.arr xs) = some text ∧
      text = "[" ++ ", ".intercalate parts ++ "]" ∧ List.Forall₂ ElementText xs parts ∧
      read? text = some (nulled (.arr xs)) ∧
      (read? text = some (.arr xs) ↔ ∀ s, Holds s (.arr xs) → Text.isBlankText s = false) ∧
      ∀ ys, Simple (.arr ys) →
        (write? .array (.arr ys) = some text ↔ nulled (.arr ys) = nulled (.arr xs))) := by
  have harray (ys : List Json) : write? .array (.arr ys) = write? .any (.arr ys) := by
    rw [write?_arr rfl, write?_arr rfl]
  refine ⟨?_, fun hshort => ?_⟩
  · rw [harray]
    refine ⟨fun hnone => ?_, h.write?_long⟩
    by_contra hshort
    obtain ⟨text, htext⟩ := h.written (by simpa using hshort)
    rw [htext.write] at hnone
    cases hnone
  have hxs : ∀ x ∈ xs, Simple x := by cases h with | arr hxs => exact hxs
  choose! part hpart using fun x hx => (hxs x hx).written (Json.isShort_arr.mp hshort x hx)
  have hparts : List.Forall₂ Written xs (xs.map part) :=
    List.forall₂_map_right_iff.mpr (List.forall₂_same.mpr hpart)
  have hwritten := Written.arr hparts
  refine ⟨_, _, (harray xs).trans hwritten.write, rfl, hparts.imp fun x p hx => ?_,
    hwritten.read_eq, ?_, fun ys hys => ?_⟩
  · constructor
    · rintro s rfl
      obtain rfl := Option.some.inj (hx.write.symm.trans (write?_text s))
      split
      · rfl
      · exact quote_isLiteral s
    · rintro ys rfl
      exact (harray ys).trans hx.write
  · rw [hwritten.read_eq, Option.some.injEq, h.nulled_eq_iff]
  · rw [harray]
    constructor
    · intro hsame
      have hshort' : (Json.arr ys).isShort = true := by
        by_contra hlong
        rw [hys.write?_long (by simpa using hlong)] at hsame
        cases hsame
      obtain ⟨other, hother⟩ := hys.written hshort'
      obtain rfl := Option.some.inj (hother.write.symm.trans hsame)
      exact Option.some.inj (hother.read_eq.symm.trans hwritten.read_eq)
    · intro heq
      rw [← hys.write?_nulled, heq, h.write?_nulled, hwritten.write]

/-- A list in which quotes, brackets and separators stand inside texts. -/
def shelf : List Json :=
  [.str "a, \"]", .arr [.arr [], .str "[1]", .int (-40)], .bool true, .str "null"]

theorem simple_shelf : Simple (.arr shelf) := by
  refine .arr (List.forall_mem_cons.mpr ⟨.str _, List.forall_mem_cons.mpr ⟨.arr ?_,
    List.forall_mem_cons.mpr ⟨.bool _, List.forall_mem_singleton.mpr (.str _)⟩⟩⟩)
  exact List.forall_mem_cons.mpr ⟨.arr (List.forall_mem_nil _),
    List.forall_mem_cons.mpr ⟨.str _, List.forall_mem_singleton.mpr (.int _)⟩⟩

theorem array_literals_shelf :
    Simple (.arr shelf) ∧ (Json.arr shelf).isShort = true ∧
      ∃ text, write? .array (.arr shelf) = some text ∧ read? text = some (.arr shelf) := by
  have hshort : (Json.arr shelf).isShort = true := by decide
  obtain ⟨parts, text, hwrite, -, -, -, hread, -⟩ := (array_literals simple_shelf).2 hshort
  exact ⟨simple_shelf, hshort, text, hwrite, hread.mpr (simple_shelf.nulled_eq_iff.mp rfl)⟩

/-- An empty text and a space have one literal in a list, and it is read as neither. -/
theorem blank_elements_lost :
    Simple (.arr [.str ""]) ∧ Simple (.arr [.str " "]) ∧
      write? .array (.arr [.str ""]) = some "[null]" ∧
      write? .array (.arr [.str " "]) = some "[null]" ∧ read? "[null]" = some (.arr [.null]) :=
  ⟨.arr (List.forall_mem_singleton.mpr (.str _)), .arr (List.forall_mem_singleton.mpr (.str _)),
    rfl, rfl, rfl⟩

end VisualScript.Literal
