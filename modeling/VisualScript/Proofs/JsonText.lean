import VisualScript.Proofs.Numerals
import VisualScript.Proofs.Tables

/-!
# Proofs — JSON text

Reading what was written.  A value comes back from its text with its doubles as they were, except
that those that are not finite have become null (`restored`); it does not come back if it nests too
deep for the reader or holds a whole number with too many digits (`read?_write`).  The fuel of the
reader is enough, since every value of the text takes up at least one character.
-/

namespace VisualScript.Json

open Reader

variable {limit : Nat} {rest : List Char}

/-! ### Strings -/

theorem unit?_hex : ∀ n < 32,
    Text.hex 4 n = [Text.hexDigit (n / 16 ^ 3 % 16), Text.hexDigit (n / 16 ^ 2 % 16),
      Text.hexDigit (n / 16 ^ 1 % 16), Text.hexDigit (n / 16 ^ 0 % 16)] ∧
    unit? (Text.hexDigit (n / 16 ^ 3 % 16)) (Text.hexDigit (n / 16 ^ 2 % 16))
      (Text.hexDigit (n / 16 ^ 1 % 16)) (Text.hexDigit (n / 16 ^ 0 % 16)) = some n := by
  decide

theorem string?_short {e c : Char} (he : e ≠ 'u') (h : shortEscape? e = some c)
    (rest : List Char) :
    string? ('\\' :: e :: rest) = (string? rest).map fun (s, r) => (c :: s, r) := by
  rw [string?.eq_4 _ _ fun _ _ _ _ _ hu => absurd hu he, h]
  cases string? rest <;> rfl

theorem string?_char (c : Char) (rest : List Char) :
    string? (Writer.char c ++ rest) = (string? rest).map fun (s, r) => (c :: s, r) := by
  unfold Writer.char
  split
  case h_8 hquote hslash _ _ _ _ _ =>
    split
    case isTrue h =>
      obtain ⟨hhex, hunit⟩ := unit?_hex _ h
      have hlow : isLowSurrogate c.toNat = false := by simp [isLowSurrogate]; omega
      have hhigh : isHighSurrogate c.toNat = false := by simp [isHighSurrogate]; omega
      rw [hhex]
      simp only [List.cons_append, List.nil_append, string?, hunit, hlow, hhigh]
      cases string? rest <;> simp
    case isFalse h =>
      rw [List.singleton_append, string?.eq_5 _ _ hquote (fun _ _ _ _ _ h => absurd h hslash)
        (fun _ _ h => absurd h hslash), if_neg (not_or.mpr ⟨h, hslash⟩)]
      cases string? rest <;> rfl
  all_goals exact string?_short (by decide) rfl rest

/-- A string is read back from its text. -/
theorem string?_flatMap (cs rest : List Char) :
    string? (cs.flatMap Writer.char ++ '"' :: rest) = some (cs, rest) := by
  induction cs with
  | nil => rfl
  | cons c cs ih => rw [List.flatMap_cons, List.append_assoc, string?_char, ih]; rfl

/-! ### Values -/

mutual

/-- The value as it comes back from its text: a double that is not finite has become null. -/
def restored : Json → Json
  | .float x => if x.isFinite then .float x else .null
  | .arr xs  => .arr (restoredItems xs)
  | .obj es  => .obj (restoredEntries es)
  | v        => v

def restoredItems : List Json → List Json
  | []      => []
  | x :: xs => x.restored :: restoredItems xs

def restoredEntries : List (String × Json) → List (String × Json)
  | []           => []
  | (k, v) :: es => (k, v.restored) :: restoredEntries es

end

mutual

/-- Every double in a value has the form of one, and every object has each key once. -/
def Sound : Json → Prop
  | .float x => x.Canonical
  | .arr xs  => SoundItems xs
  | .obj es  => (Assoc.keys es).Nodup ∧ SoundEntries es
  | _        => True

def SoundItems : List Json → Prop
  | []      => True
  | x :: xs => x.Sound ∧ SoundItems xs

def SoundEntries : List (String × Json) → Prop
  | []           => True
  | (_, v) :: es => v.Sound ∧ SoundEntries es

end

/-! ### Where a value starts -/

/-- A character that is no white space and opens or closes nothing. -/
def Plain (c : Char) : Prop := isSpace c = false ∧ c ∉ ['[', ']', '\x7b', '\x7d']

instance (c : Char) : Decidable (Plain c) := inferInstanceAs (Decidable (_ ∧ _))

theorem plain_of_isDigit {c : Char} (h : Number.isDigit c = true) : Plain c := by
  have hne {d : Char} (hd : Number.isDigit d = false) : c ≠ d := ne_of_isDigit h hd
  constructor
  · simp only [isSpace, Bool.or_eq_false_iff, beq_eq_false_iff_ne]
    exact ⟨⟨⟨hne rfl, hne rfl⟩, hne rfl⟩, hne rfl⟩
  · simp only [List.mem_cons, List.not_mem_nil, or_false, not_or]
    exact ⟨hne rfl, hne rfl, hne rfl, hne rfl⟩

theorem float_of_not_finite {x : Binary64} (h : x.isFinite = false) :
    Writer.float x = ['n', 'u', 'l', 'l'] := by
  cases x with
  | finite s m e => cases h
  | infinite s => simp [Writer.float, Layout.write?]
  | nan => simp [Writer.float, Layout.write?]

theorem plain_signed {p : Prop} [Decidable p] {ds cs : List Char} (h : Whole ds) :
    ∃ c cs', (if p then '-' :: (ds ++ cs) else ds ++ cs) = c :: cs' ∧ Plain c := by
  obtain ⟨d, ds, rfl, hd⟩ := h.exists_cons
  split
  · exact ⟨_, _, rfl, by decide⟩
  · exact ⟨_, _, rfl, plain_of_isDigit hd⟩

theorem float_head {x : Binary64} (h : x.Canonical) :
    ∃ c cs, Writer.float x = c :: cs ∧ Plain c := by
  match x with
  | .finite s m e =>
    obtain ⟨n, htext, hn, _⟩ := exists_float_numeral h
    rw [htext, Numeral.text]
    exact plain_signed hn.whole
  | .infinite s => exact ⟨_, _, float_of_not_finite rfl, by decide⟩
  | .nan => exact ⟨_, _, float_of_not_finite rfl, by decide⟩

theorem int_head (i : Int) : ∃ c cs, (toString i).toList = c :: cs ∧ Plain c := by
  have := @plain_signed (i < 0) _ _ [] (whole_toDigits i.natAbs)
  rwa [List.append_nil, ← toList_toString_int] at this

theorem value_head : ∀ {v : Json}, v.Sound →
    ∃ c cs, Writer.value v = c :: cs ∧ isSpace c = false ∧ c ≠ ']' ∧ c ≠ '\x7d'
  | .null, _ | .bool true, _ | .bool false, _ | .arr _, _ | .obj _, _ =>
    ⟨_, _, by rw [Writer.value], by decide, by decide, by decide⟩
  | .str s, _ => ⟨_, _, by rw [Writer.value, Writer.string], by decide, by decide, by decide⟩
  | .int i, _ => by
    obtain ⟨c, cs, htext, hspace, hc⟩ := int_head i
    exact ⟨c, cs, by rw [Writer.value, htext], hspace, by simp_all, by simp_all⟩
  | .float x, h => by
    obtain ⟨c, cs, htext, hspace, hc⟩ := float_head h
    exact ⟨c, cs, by rw [Writer.value, htext], hspace, by simp_all, by simp_all⟩

theorem skipSpace_cons {c : Char} (h : isSpace c = false) (cs : List Char) :
    skipSpace (c :: cs) = c :: cs := by simp [skipSpace, h]

theorem value?_plain {c : Char} (h : Plain c) (fuel depth : Nat) (cs : List Char) :
    value? limit (fuel + 1) depth (c :: cs) = scalar? limit (c :: cs) := by
  rw [value?, skipSpace_cons h.1]
  split
  case h_1 heq => exact absurd (by simp [(List.cons.inj heq).1]) h.2
  case h_2 heq => exact absurd (by simp [(List.cons.inj heq).1]) h.2
  case h_3 => rfl

/-! ### Reading back -/

theorem afterWord?_append (word : String) (rest : List Char) :
    afterWord? word (word.toList ++ rest) = some rest := by
  simp [afterWord?, ← String.length_toList]

theorem value?_null (fuel depth : Nat) (rest : List Char) :
    value? limit (fuel + 1) depth (['n', 'u', 'l', 'l'] ++ rest) = some (.null, rest) := by
  rw [List.cons_append, value?_plain (by decide), scalar?,
    show ['u', 'l', 'l'] = "ull".toList by decide, afterWord?_append]
  rfl

theorem value?_bool (fuel depth : Nat) (b : Bool) (rest : List Char) :
    value? limit (fuel + 1) depth (Writer.value (.bool b) ++ rest) = some (.bool b, rest) := by
  cases b with
  | true =>
    rw [Writer.value, List.cons_append, value?_plain (by decide), scalar?,
      show ['r', 'u', 'e'] = "rue".toList by decide, afterWord?_append]
    rfl
  | false =>
    rw [Writer.value, List.cons_append, value?_plain (by decide), scalar?,
      show ['a', 'l', 's', 'e'] = "alse".toList by decide, afterWord?_append]
    rfl

theorem value?_int (fuel depth : Nat) (i : Int) (h : Closed rest) :
    value? limit (fuel + 1) depth (Writer.value (.int i) ++ rest) =
      if (Nat.toDigits 10 i.natAbs).length ≤ limit then some (.int i, rest) else none := by
  obtain ⟨c, cs, htext, hc⟩ := int_head i
  rw [← scalar?_int i h, Writer.value, htext, List.cons_append, value?_plain hc]

theorem value?_float {x : Binary64} (hx : x.Canonical) (hlimit : 16 ≤ limit) (fuel depth : Nat)
    (h : Closed rest) : value? limit (fuel + 1) depth (Writer.value (.float x) ++ rest) =
      some ((Json.float x).restored, rest) := by
  rw [Writer.value, restored]
  cases hfin : x.isFinite with
  | false =>
    rw [float_of_not_finite hfin, value?_null]
    rfl
  | true =>
    obtain ⟨c, cs, htext, hc⟩ := float_head hx
    match x with
    | .finite s m e =>
      rw [if_pos rfl, ← scalar?_float hx hlimit h, htext, List.cons_append, value?_plain hc]

theorem value?_str (fuel depth : Nat) (s : String) (rest : List Char) :
    value? limit (fuel + 1) depth (Writer.value (.str s) ++ rest) = some (.str s, rest) := by
  have hread := string?_flatMap s.toList rest
  rw [Writer.value, Writer.string, List.cons_append, value?_plain (by decide), scalar?,
    List.append_assoc, List.singleton_append, hread]
  simp

theorem depth_pos (v : Json) : 1 ≤ v.depth := by
  cases v <;> simp [depth]

theorem items_head {x : Json} (hx : x.Sound) (xs : List Json) :
    ∃ c cs, Writer.items (x :: xs) = c :: cs ∧ isSpace c = false ∧ c ≠ ']' := by
  obtain ⟨c, cs, htext, hspace, hc, _⟩ := value_head hx
  cases xs with
  | nil => exact ⟨c, cs, by rw [Writer.items, htext], hspace, hc⟩
  | cons y ys => exact ⟨c, _, by rw [Writer.items, htext, List.cons_append], hspace, hc⟩

theorem members_head (e : String × Json) (es : List (String × Json)) :
    ∃ cs, Writer.members (e :: es) = '"' :: cs := by
  cases es with
  | nil => exact ⟨_, by rw [Writer.members, Writer.string, List.cons_append]⟩
  | cons e' es => exact ⟨_, by rw [Writer.members, Writer.string, List.cons_append]⟩

/-- An array that is not empty is opened if the depth allows it. -/
theorem value?_arr {x : Json} {xs : List Json} (hx : x.Sound) (fuel : Nat) :
    value? limit (fuel + 1) 0 (Writer.value (.arr (x :: xs)) ++ rest) = none ∧
    ∀ depth, value? limit (fuel + 1) (depth + 1) (Writer.value (.arr (x :: xs)) ++ rest) =
      (items? limit fuel depth (Writer.items (x :: xs) ++ ']' :: rest)).map
        fun (ys, r) => (.arr ys, r) := by
  obtain ⟨c, cs, htext, hspace, hc⟩ := items_head hx xs
  have hvalue (depth : Nat) :
      value? limit (fuel + 1) depth (Writer.value (.arr (x :: xs)) ++ rest) =
        match depth with
        | 0     => none
        | d + 1 => (items? limit fuel d (Writer.items (x :: xs) ++ ']' :: rest)).map
          fun (ys, r) => (.arr ys, r) := by
    rw [Writer.value, List.cons_append, value?, skipSpace_cons (by decide), List.append_assoc,
      List.singleton_append, htext, List.cons_append]
    simp only [skipSpace_cons hspace]
    split
    case h_1 heq => exact absurd (List.cons.inj heq).1 hc
    case h_2 => rfl
    case h_3 => rfl
  exact ⟨hvalue 0, fun depth => hvalue (depth + 1)⟩

theorem value?_obj (e : String × Json) (es : List (String × Json)) (fuel : Nat) :
    value? limit (fuel + 1) 0 (Writer.value (.obj (e :: es)) ++ rest) = none ∧
    ∀ depth, value? limit (fuel + 1) (depth + 1) (Writer.value (.obj (e :: es)) ++ rest) =
      (members? limit fuel depth (Writer.members (e :: es) ++ '\x7d' :: rest)).map
        fun (fs, r) => (.obj fs, r) := by
  obtain ⟨cs, htext⟩ := members_head e es
  have hvalue (depth : Nat) :
      value? limit (fuel + 1) depth (Writer.value (.obj (e :: es)) ++ rest) =
        match depth with
        | 0     => none
        | d + 1 => (members? limit fuel d (Writer.members (e :: es) ++ '\x7d' :: rest)).map
          fun (fs, r) => (.obj fs, r) := by
    rw [Writer.value, List.cons_append, value?, skipSpace_cons (by decide), List.append_assoc,
      List.singleton_append, htext, List.cons_append]
    simp only [skipSpace_cons (show isSpace '"' = false by decide)]
    cases depth <;> rfl
  exact ⟨hvalue 0, fun depth => hvalue (depth + 1)⟩

theorem closed_cons {c : Char} (h : c = ',' ∨ c = ']' ∨ c = '\x7d') (cs : List Char) :
    Closed (c :: cs) := by
  rintro _ ⟨⟩
  exact h

theorem itemsDepth_pos (x : Json) (xs : List Json) : 1 ≤ itemsDepth (x :: xs) :=
  le_max_of_le_left x.depth_pos

theorem entriesDepth_pos (e : String × Json) (es : List (String × Json)) :
    1 ≤ entriesDepth (e :: es) :=
  le_max_of_le_left e.2.depth_pos

/-- The rest of an object behind the key `k` and its colon. -/
def membersFrom? (limit fuel depth : Nat) (k : String) (cs : List Char) :
    Option (List (String × Json) × List Char) := do
  let (v, cs) ← value? limit fuel depth cs
  match skipSpace cs with
  | '\x7d' :: cs => return ([(k, v)], cs)
  | ',' :: cs    =>
      let (es, cs) ← members? limit fuel depth cs
      return ((k, v) :: es, cs)
  | _ => none

theorem members?_string (fuel depth : Nat) (k : String) (cs : List Char) :
    members? limit (fuel + 1) depth (Writer.string k ++ ':' :: cs) =
      membersFrom? limit fuel depth k cs := by
  rw [Writer.string, List.cons_append, members?, skipSpace_cons (by decide), List.append_assoc,
    List.singleton_append]
  simp only [string?_flatMap, bind, Option.bind, String.ofList_toList,
    skipSpace_cons (show isSpace ':' = false by decide)]
  rfl

mutual

theorem value?_text (hlimit : 16 ≤ limit) : ∀ (v : Json) (fuel depth : Nat) (rest : List Char),
    v.Sound → Closed rest → 2 * (Writer.value v).length ≤ fuel →
      value? limit fuel depth (Writer.value v ++ rest) =
        if v.depth ≤ depth + 1 ∧ v.longest ≤ limit then some (v.restored, rest) else none
  | v, 0, depth, rest, hv, h, hfuel => by
    obtain ⟨c, cs, htext, _⟩ := value_head hv
    simp [htext] at hfuel
  | .null, fuel + 1, depth, rest, _, _, _ => by
    rw [Writer.value, value?_null, if_pos (by simp [Json.depth, longest]), restored]
    all_goals simp
  | .bool b, fuel + 1, depth, rest, _, _, _ => by
    rw [value?_bool, if_pos (by simp [Json.depth, longest]), restored]
    all_goals simp
  | .int i, fuel + 1, depth, rest, _, h, _ => by
    rw [value?_int fuel depth i h, restored]
    · simp [Json.depth, longest]
    all_goals simp
  | .float x, fuel + 1, depth, rest, hv, h, _ => by
    rw [value?_float hv hlimit fuel depth h, if_pos (by simp [Json.depth, longest])]
  | .str s, fuel + 1, depth, rest, _, _, _ => by
    rw [value?_str, if_pos (by simp [Json.depth, longest]), restored]
    all_goals simp
  | .arr [], fuel + 1, depth, rest, _, _, _ => by
    simp [Writer.value, Writer.items, value?, skipSpace, isSpace, Json.depth, itemsDepth, longest,
      itemsLongest, restored, restoredItems]
  | .arr (x :: xs), fuel + 1, depth, rest, hv, _, hfuel => by
    obtain ⟨hzero, hsucc⟩ := @value?_arr limit rest x xs hv.1 fuel
    cases depth with
    | zero =>
      rw [hzero, if_neg]
      have := itemsDepth_pos x xs
      rw [Json.depth]
      omega
    | succ depth =>
      have hlength : (Writer.value (.arr (x :: xs))).length =
        (Writer.items (x :: xs)).length + 2 := by rw [Writer.value]; simp
      rw [hsucc, items?_text hlimit (x :: xs) fuel depth rest hv (by simp) (by omega)]
      simp only [Json.depth, longest, restored, Nat.add_le_add_iff_right]
      split <;> rfl
  | .obj [], fuel + 1, depth, rest, _, _, _ => by
    simp [Writer.value, Writer.members, value?, skipSpace, isSpace, Json.depth, entriesDepth,
      longest, entriesLongest, restored, restoredEntries]
  | .obj (e :: es), fuel + 1, depth, rest, hv, _, hfuel => by
    obtain ⟨hzero, hsucc⟩ := @value?_obj limit rest e es fuel
    cases depth with
    | zero =>
      rw [hzero, if_neg]
      have := entriesDepth_pos e es
      rw [Json.depth]
      omega
    | succ depth =>
      have hlength : (Writer.value (.obj (e :: es))).length =
        (Writer.members (e :: es)).length + 2 := by rw [Writer.value]; simp
      rw [hsucc, members?_text hlimit (e :: es) fuel depth rest hv.2 (by simp) (by omega)]
      simp only [Json.depth, longest, restored, Nat.add_le_add_iff_right]
      split <;> rfl

theorem items?_text (hlimit : 16 ≤ limit) : ∀ (xs : List Json) (fuel depth : Nat)
    (rest : List Char), SoundItems xs → xs ≠ [] → 2 * (Writer.items xs).length < fuel →
      items? limit fuel depth (Writer.items xs ++ ']' :: rest) =
        if itemsDepth xs ≤ depth + 1 ∧ itemsLongest xs ≤ limit
        then some (restoredItems xs, rest) else none
  | [], _, _, _, _, hne, _ => absurd rfl hne
  | _, 0, _, _, _, _, hfuel => absurd hfuel (Nat.not_lt_zero _)
  | [x], fuel + 1, depth, rest, hxs, _, hfuel => by
    have hx := value?_text hlimit x fuel depth (']' :: rest) hxs.1 (closed_cons (by simp) _)
      (by rw [Writer.items] at hfuel; omega)
    rw [Writer.items, items?, hx]
    simp only [itemsDepth, itemsLongest, restoredItems, Nat.max_zero]
    split <;> rfl
  | x :: y :: xs, fuel + 1, depth, rest, hxs, _, hfuel => by
    have hx := value?_text hlimit x fuel depth (',' :: (Writer.items (y :: xs) ++ ']' :: rest))
      hxs.1 (closed_cons (by simp) _) (by simp [Writer.items] at hfuel; omega)
    have hys := items?_text hlimit (y :: xs) fuel depth rest hxs.2 (by simp)
      (by simp [Writer.items] at hfuel; omega)
    rw [Writer.items, List.append_assoc, List.cons_append, items?, hx, itemsDepth, itemsLongest,
      restoredItems]
    simp only [max_le_iff]
    by_cases h₁ : x.depth ≤ depth + 1 ∧ x.longest ≤ limit
    · rw [if_pos h₁]
      simp only [bind, Option.bind, skipSpace_cons (show isSpace ',' = false by decide), hys]
      by_cases h₂ : itemsDepth (y :: xs) ≤ depth + 1 ∧ itemsLongest (y :: xs) ≤ limit
      · rw [if_pos h₂, if_pos ⟨⟨h₁.1, h₂.1⟩, h₁.2, h₂.2⟩]
        rfl
      · rw [if_neg h₂, if_neg fun h => h₂ ⟨h.1.2, h.2.2⟩]
    · rw [if_neg h₁, if_neg fun h => h₁ ⟨h.1.1, h.2.1⟩]
      rfl

theorem members?_text (hlimit : 16 ≤ limit) : ∀ (es : List (String × Json)) (fuel depth : Nat)
    (rest : List Char), SoundEntries es → es ≠ [] → 2 * (Writer.members es).length < fuel →
      members? limit fuel depth (Writer.members es ++ '\x7d' :: rest) =
        if entriesDepth es ≤ depth + 1 ∧ entriesLongest es ≤ limit
        then some (restoredEntries es, rest) else none
  | [], _, _, _, _, hne, _ => absurd rfl hne
  | _, 0, _, _, _, _, hfuel => absurd hfuel (Nat.not_lt_zero _)
  | [(k, v)], fuel + 1, depth, rest, hes, _, hfuel => by
    have hv := value?_text hlimit v fuel depth ('\x7d' :: rest) hes.1 (closed_cons (by simp) _)
      (by simp [Writer.members] at hfuel; omega)
    rw [Writer.members, List.append_assoc, List.cons_append, members?_string, membersFrom?, hv]
    simp only [entriesDepth, entriesLongest, restoredEntries, Nat.max_zero]
    split <;> rfl
  | (k, v) :: e :: es, fuel + 1, depth, rest, hes, _, hfuel => by
    have hv := value?_text hlimit v fuel depth
      (',' :: (Writer.members (e :: es) ++ '\x7d' :: rest)) hes.1 (closed_cons (by simp) _)
      (by simp [Writer.members] at hfuel; omega)
    have hys := members?_text hlimit (e :: es) fuel depth rest hes.2 (by simp)
      (by simp [Writer.members] at hfuel; omega)
    rw [Writer.members, List.append_assoc, List.cons_append, List.append_assoc, List.cons_append,
      members?_string, membersFrom?, hv, entriesDepth, entriesLongest, restoredEntries]
    simp only [max_le_iff]
    by_cases h₁ : v.depth ≤ depth + 1 ∧ v.longest ≤ limit
    · rw [if_pos h₁]
      simp only [bind, Option.bind, skipSpace_cons (show isSpace ',' = false by decide), hys]
      by_cases h₂ : entriesDepth (e :: es) ≤ depth + 1 ∧ entriesLongest (e :: es) ≤ limit
      · rw [if_pos h₂, if_pos ⟨⟨h₁.1, h₂.1⟩, h₁.2, h₂.2⟩]
        rfl
      · rw [if_neg h₂, if_neg fun h => h₂ ⟨h.1.2, h.2.2⟩]
    · rw [if_neg h₁, if_neg fun h => h₁ ⟨h.1.1, h.2.1⟩]
      rfl

end

/-- **A value comes back from its text, unless the text goes beyond the limits of the reader.** -/
theorem read?_write {limits : Limits} (hlimit : 16 ≤ limits.digits) {v : Json} (hv : v.Sound) :
    read? limits v.write =
      if v.depth ≤ limits.depth + 1 ∧ v.longest ≤ limits.digits then some v.restored else none := by
  have hread := value?_text hlimit v (2 * (Writer.value v).length + 2) limits.depth [] hv
    (by simp [Closed]) (by omega)
  rw [List.append_nil] at hread
  rw [read?, write, String.toList_ofList]
  simp only [hread, bind, Option.bind]
  by_cases h : v.depth ≤ limits.depth + 1 ∧ v.longest ≤ limits.digits
  · simp only [if_pos h]
    rfl
  · simp only [if_neg h]

/-! ### Values that have come back -/

theorem restoredItems_eq_map (xs : List Json) : restoredItems xs = xs.map restored := by
  induction xs with
  | nil => rfl
  | cons x xs ih => rw [restoredItems, ih, List.map_cons]

theorem restoredEntries_eq_map (es : List (String × Json)) :
    restoredEntries es = es.map fun e => (e.1, e.2.restored) := by
  induction es with
  | nil => rfl
  | cons e es ih => rw [restoredEntries, ih, List.map_cons]

theorem soundItems_iff {xs : List Json} : SoundItems xs ↔ ∀ x ∈ xs, x.Sound := by
  induction xs with
  | nil => simp [SoundItems]
  | cons x xs ih => simp [SoundItems, ih]

theorem soundEntries_iff {es : List (String × Json)} :
    SoundEntries es ↔ ∀ e ∈ es, e.2.Sound := by
  induction es with
  | nil => simp [SoundEntries]
  | cons e es ih => simp [SoundEntries, ih]

theorem keys_restoredEntries (es : List (String × Json)) :
    Assoc.keys (restoredEntries es) = Assoc.keys es := by
  simp [restoredEntries_eq_map, Assoc.keys]

mutual

/-- A value that has come back is written like the one before. -/
theorem value_restored : ∀ v : Json, Writer.value v.restored = Writer.value v
  | .null | .bool _ | .int _ | .str _ => by simp [restored]
  | .float x => by
    rw [restored]
    split
    case isTrue => rfl
    case isFalse h => rw [Writer.value, Writer.value, float_of_not_finite (by simpa using h)]
  | .arr xs => by rw [restored, Writer.value, Writer.value, items_restored xs]
  | .obj es => by rw [restored, Writer.value, Writer.value, members_restored es]

theorem items_restored : ∀ xs : List Json, Writer.items (restoredItems xs) = Writer.items xs
  | [] => rfl
  | [x] => by
    rw [restoredItems, restoredItems, Writer.items, Writer.items, value_restored x]
  | x :: y :: xs => by
    have ih := items_restored (y :: xs)
    rw [restoredItems] at ih ⊢
    rw [restoredItems, Writer.items, ih, Writer.items, value_restored x]

theorem members_restored : ∀ es : List (String × Json),
    Writer.members (restoredEntries es) = Writer.members es
  | [] => rfl
  | [(k, v)] => by
    rw [restoredEntries, restoredEntries, Writer.members, Writer.members, value_restored v]
  | (k, v) :: (k', v') :: es => by
    have ih := members_restored ((k', v') :: es)
    rw [restoredEntries] at ih ⊢
    rw [restoredEntries, Writer.members, ih, Writer.members, value_restored v]

end

mutual

theorem restored_restored : ∀ v : Json, v.restored.restored = v.restored
  | .null | .bool _ | .int _ | .str _ => by simp [restored]
  | .float x => by
    rw [restored]
    split <;> simp_all [restored]
  | .arr xs => by rw [restored, restored, restoredItems_restored xs]
  | .obj es => by rw [restored, restored, restoredEntries_restored es]

theorem restoredItems_restored : ∀ xs : List Json,
    restoredItems (restoredItems xs) = restoredItems xs
  | [] => rfl
  | x :: xs => by
    rw [restoredItems, restoredItems, restored_restored x, restoredItems_restored xs]

theorem restoredEntries_restored : ∀ es : List (String × Json),
    restoredEntries (restoredEntries es) = restoredEntries es
  | [] => rfl
  | (k, v) :: es => by
    rw [restoredEntries, restoredEntries, restored_restored v, restoredEntries_restored es]

end

mutual

/-- Dropping repeated keys changes nothing in what has come back. -/
theorem distinct_restored : ∀ {v : Json}, v.Sound → v.restored.distinct = v.restored
  | .null, _ | .bool _, _ | .int _, _ | .str _, _ => by simp [restored, distinct]
  | .float x, _ => by
    rw [restored]
    split <;> simp [distinct]
  | .arr xs, h => by rw [restored, distinct, distinctItems_restored h]
  | .obj es, h => by
    rw [restored, distinct, distinctValues_restored h.2, Assoc.merge_nil]
    rw [keys_restoredEntries]
    exact h.1

theorem distinctItems_restored : ∀ {xs : List Json}, SoundItems xs →
    distinctItems (restoredItems xs) = restoredItems xs
  | [], _ => rfl
  | x :: xs, h => by
    rw [restoredItems, distinctItems, distinct_restored h.1, distinctItems_restored h.2]

theorem distinctValues_restored : ∀ {es : List (String × Json)}, SoundEntries es →
    distinctValues (restoredEntries es) = restoredEntries es
  | [], _ => rfl
  | (k, v) :: es, h => by
    rw [restoredEntries, distinctValues, distinct_restored h.1, distinctValues_restored h.2]

end

end VisualScript.Json
