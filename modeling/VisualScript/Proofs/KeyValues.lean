import VisualScript.Project.Localization

/-!
# Proofs — Key values

A reader of key-value texts: quoted strings in pairs, and blocks in braces behind a key.  A string
runs to the next quote that no backslash stands before, and the escapes are those of the token
tables.  Readers differ in what they make of a backslash before any other character and of a line
feed in a string; a `Dialect` says it.

* `inside_iff`: a text between quotes is read as itself, with the string ending at its own closing
  quote, exactly if it is plain.
* `scan_pair_iff`: hence a pair is read back exactly if its key and its value are plain, whatever
  follows it.
-/

namespace VisualScript.KeyValues

variable {r s : List Char} {ts : List Token} {k : String}

/-- What a backslash before a character that needs none stands for. -/
inductive Stray where
  | refused
  /-- The backslash and the character. -/
  | kept
  /-- The character alone. -/
  | dropped
deriving DecidableEq

/-- How the strings of a text are read. -/
structure Dialect where
  stray     : Stray
  /-- Whether a string may run over the end of a line. -/
  multiline : Bool

namespace Dialect

def admits (d : Dialect) (c : Char) : Bool := c != '\n' || d.multiline

/-- What a backslash and a character stand for. -/
def unescape (d : Dialect) (c : Char) : Option (List Char) :=
  match LocalizationFile.escapes.find? (·.2 == c) with
  | some (plain, _) => some [plain]
  | none =>
      if d.admits c then
        match d.stray with
        | .refused => none
        | .kept    => some ['\\', c]
        | .dropped => some [c]
      else none

end Dialect

inductive Token where
  | text (s : String)
  | opening
  | closing

def isBlank (c : Char) : Bool := c == ' ' || c == '\t' || c == '\n' || c == '\r'

mutual

/-- The tokens of a text. -/
def outside (d : Dialect) : List Char → Option (List Token)
  | [] => some []
  | c :: cs =>
      if isBlank c then outside d cs
      else if c = '"' then (inside d cs).map fun (s, ts) => .text (String.ofList s) :: ts
      else if c = '\x7b' then (outside d cs).map (.opening :: ·)
      else if c = '\x7d' then (outside d cs).map (.closing :: ·)
      else none

/-- The rest of a string, and the tokens behind it. -/
def inside (d : Dialect) : List Char → Option (List Char × List Token)
  | []              => none
  | '"' :: cs       => (outside d cs).map ([], ·)
  | '\\' :: c :: cs => do
      let plain ← d.unescape c
      let (s, ts) ← inside d cs
      return (plain ++ s, ts)
  | c :: cs =>
      if d.admits c then (inside d cs).map fun (s, ts) => (c :: s, ts) else none

end

/-- What a text holds, one after the other. -/
inductive Event where
  | pair (key value : String)
  | opens (key : String)
  | closes

/-- Tokens as pairs, and as blocks behind their keys. -/
def events : List Token → Option (List Event)
  | []                        => some []
  | .text k :: .text v :: ts  => (events ts).map (.pair k v :: ·)
  | .text k :: .opening :: ts => (events ts).map (.opens k :: ·)
  | .closing :: ts            => (events ts).map (.closes :: ·)
  | _                         => none

/-- Whether every block that is opened is closed, with `depth` blocks around. -/
def balanced : (depth : Nat) → List Event → Bool
  | depth,     []              => depth == 0
  | depth,     .pair _ _ :: es => balanced depth es
  | depth,     .opens _ :: es  => balanced (depth + 1) es
  | 0,         .closes :: _    => false
  | depth + 1, .closes :: es   => balanced depth es

def scan (d : Dialect) (cs : List Char) : Option (List Event) := (outside d cs).bind events

/-- Reads a text in which all blocks are closed. -/
def read? (d : Dialect) (text : String) : Option (List Event) :=
  (scan d text.toList).filter (balanced 0)

/-- A text that stands for itself between quotes. -/
def plain (d : Dialect) : List Char → Bool
  | []              => true
  | '"' :: _        => false
  | '\\' :: c :: cs => d.unescape c == some ['\\', c] && plain d cs
  | c :: cs         => c != '\\' && d.admits c && plain d cs

/-! ### Strings -/

variable {d : Dialect} {c : Char} {cs : List Char}

/-- An escape stands for one character, which is a backslash only where a backslash is escaped, or
for itself. -/
theorem unescape_cases {w : List Char} (h : d.unescape c = some w) :
    (∃ p, w = [p] ∧ (p = '\\' → c = '\\')) ∨ w = ['\\', c] ∧ c ≠ '\\' := by
  by_cases hc : c = '\\'
  · subst hc
    cases h
    exact .inl ⟨_, rfl, fun _ => rfl⟩
  by_cases hq : c = '"'
  · subst hq
    cases h
    exact .inl ⟨_, rfl, by decide⟩
  by_cases hn : c = 'n'
  · subst hn
    cases h
    exact .inl ⟨_, rfl, by decide⟩
  have hnone : LocalizationFile.escapes.find? (·.2 == c) = none := by
    simp [LocalizationFile.escapes, Ne.symm hc, Ne.symm hq, Ne.symm hn]
  simp only [Dialect.unescape, hnone] at h
  split at h
  · split at h
    · cases h
    · cases h
      exact .inr ⟨rfl, hc⟩
    · cases h
      exact .inl ⟨c, rfl, id⟩
  · cases h

theorem inside_quote : inside d ('"' :: cs) = (outside d cs).map ([], ·) := by rw [inside]

theorem inside_escape : inside d ('\\' :: c :: cs) = (d.unescape c).bind fun w =>
    (inside d cs).map fun r => (w ++ r.1, r.2) := by
  rw [inside]
  cases d.unescape c with
  | none => rfl
  | some w => cases inside d cs <;> rfl

theorem inside_char (hq : c ≠ '"') (hb : c ≠ '\\') : inside d (c :: cs) =
    if d.admits c then (inside d cs).map fun r => (c :: r.1, r.2) else none := by
  rw [inside]
  · intro h
    exact absurd h hq
  · intro c' cs' h
    exact absurd h hb

theorem inside_escape_eq_some :
    inside d ('\\' :: c :: cs) = some (s, ts) ↔
      ∃ w s', d.unescape c = some w ∧ inside d cs = some (s', ts) ∧ w ++ s' = s := by
  rw [inside_escape]
  simp only [Option.bind_eq_some_iff, Option.map_eq_some_iff, Prod.mk.injEq, Prod.exists]
  grind

theorem unescape_quote : d.unescape '"' = some ['"'] := rfl

/-- A string that ends with a backslash runs on over its closing quote. -/
theorem inside_slash_quote (h : inside d ('\\' :: '"' :: r) = some (s, ts)) :
    ∃ s', s = '"' :: s' := by
  obtain ⟨w, s', hw, -, rfl⟩ := inside_escape_eq_some.mp h
  cases unescape_quote.symm.trans hw
  exact ⟨s', rfl⟩

theorem inside_char_eq_some (hq : c ≠ '"') (hb : c ≠ '\\') :
    inside d (c :: cs) = some (s, ts) ↔
      d.admits c = true ∧ ∃ s', inside d cs = some (s', ts) ∧ c :: s' = s := by
  rw [inside_char hq hb]
  split
  case isTrue h => simp [h]
  case isFalse h => simp [h]

theorem slashes_append (j : Nat) (q : List Char) :
    List.replicate j '\\' ++ '\\' :: q = '\\' :: (List.replicate j '\\' ++ q) := by
  induction j with
  | zero => rfl
  | succ j ih => rw [List.replicate_succ, List.cons_append, ih, List.cons_append]

theorem plain_char (hq : c ≠ '"') (hb : c ≠ '\\') :
    plain d (c :: cs) = (d.admits c && plain d cs) := by
  have hslash : (c != '\\') = true := bne_iff_ne.mpr hb
  rw [plain, hslash, Bool.true_and]
  · exact hq
  · intro e cs' h
    exact absurd h hb

/-- A string is not read with backslashes added in front: an escape that gives a backslash has used
up two of them. -/
theorem inside_ne (r : List Char) (ts : List Token) (q : List Char) : ∀ j : Nat,
    inside d (q ++ '"' :: r) ≠ some ('\\' :: (List.replicate j '\\' ++ q), ts) := by
  induction q using plain.induct with
  | case1 =>
    intro j h
    rw [List.nil_append, inside_quote] at h
    simp at h
  | case2 q =>
    intro j h
    rw [List.cons_append, inside_quote] at h
    simp at h
  | case3 e q ih =>
    intro j h
    obtain ⟨w, s, hw, hs, heq⟩ := inside_escape_eq_some.mp h
    rw [slashes_append] at heq
    rcases unescape_cases hw with ⟨p, rfl, hp⟩ | ⟨rfl, he⟩
    · obtain ⟨rfl, rfl⟩ := List.cons.inj heq
      obtain rfl := hp rfl
      rw [slashes_append] at hs
      exact ih (j + 1) hs
    · obtain ⟨-, heq⟩ := List.cons.inj heq
      exact he (List.cons.inj heq).1
  | case4 c q hq hb ih =>
    intro j h
    by_cases hc : c = '\\'
    · -- the string is a single backslash, and its closing quote is escaped
      subst hc
      cases q with
      | cons e q => exact hb e q rfl rfl
      | nil =>
        obtain ⟨s, hs⟩ := inside_slash_quote h
        cases hs
    · obtain ⟨-, s, -, heq⟩ := (inside_char_eq_some hq hc).mp h
      exact hc (List.cons.inj heq).1

/-- **A text between quotes is read as itself exactly if it is plain.** -/
theorem inside_iff (q : List Char) :
    inside d (q ++ '"' :: r) = some (q, ts) ↔ plain d q = true ∧ outside d r = some ts := by
  induction q using plain.induct with
  | case1 => simp [inside_quote, plain]
  | case2 q => simp [inside_quote, plain]
  | case3 e q ih =>
    rw [List.cons_append, List.cons_append, inside_escape_eq_some, plain, Bool.and_eq_true,
      beq_iff_eq, and_assoc, ← ih]
    constructor
    · rintro ⟨w, s, hw, hs, heq⟩
      rcases unescape_cases hw with ⟨p, rfl, hp⟩ | ⟨rfl, he⟩
      · -- a lost backslash would have to be found again
        obtain ⟨rfl, rfl⟩ := List.cons.inj heq
        obtain rfl := hp rfl
        exact absurd hs (inside_ne r ts q 0)
      · obtain ⟨-, heq⟩ := List.cons.inj heq
        obtain ⟨-, rfl⟩ := List.cons.inj heq
        exact ⟨hw, hs⟩
    · rintro ⟨hw, hs⟩
      exact ⟨_, _, hw, hs, rfl⟩
  | case4 c q hq hb ih =>
    by_cases hc : c = '\\'
    · subst hc
      cases q with
      | cons e q => exact (hb e q rfl rfl).elim
      | nil =>
        refine ⟨fun h => ?_, fun h => ?_⟩
        · obtain ⟨s, hs⟩ := inside_slash_quote h
          cases hs
        · simp [plain] at h
    · rw [List.cons_append, inside_char_eq_some hq hc, plain_char hq hc, Bool.and_eq_true,
        and_assoc, ← ih]
      simp

/-- A text that needs no escape is plain for every reader. -/
theorem plain_of_forall : ∀ {q : List Char}, (∀ c ∈ q, c ≠ '"' ∧ c ≠ '\\' ∧ c ≠ '\n') →
    plain d q = true
  | [], _ => rfl
  | c :: q, h => by
    obtain ⟨hq, hb, hn⟩ := h c (.head _)
    rw [plain_char hq hb, plain_of_forall fun c hc => h c (.tail _ hc)]
    simp [Dialect.admits, hn]

/-- A text with a quote is plain for no reader. -/
theorem quote_not_mem_of_plain {q : List Char} (h : plain d q = true) : '"' ∉ q := by
  induction q using plain.induct with
  | case1 => exact List.not_mem_nil
  | case2 q => simp [plain] at h
  | case3 e q ih =>
    rw [plain, Bool.and_eq_true, beq_iff_eq] at h
    have he : e ≠ '"' := by
      rintro rfl
      cases unescape_quote.symm.trans h.1
    simp [he.symm, ih h.2]
  | case4 c q hq hb ih =>
    rw [plain, Bool.and_eq_true, Bool.and_eq_true] at h
    · simp [Ne.symm hq, ih h.2]
    · exact hq
    · exact hb

/-! ### Events -/

variable {es : List Event}

theorem outside_blank (h : isBlank c = true) : outside d (c :: cs) = outside d cs := by
  rw [outside, if_pos h]

theorem outside_blanks : ∀ {gap : List Char}, gap.all isBlank = true →
    outside d (gap ++ cs) = outside d cs
  | [], _ => rfl
  | c :: gap, h => by
    rw [List.all_cons, Bool.and_eq_true] at h
    rw [List.cons_append, outside_blank h.1, outside_blanks h.2]

theorem scan_blanks {gap : List Char} (h : gap.all isBlank = true) :
    scan d (gap ++ cs) = scan d cs := by
  rw [scan, scan, outside_blanks h]

theorem outside_text_iff {s : String} :
    outside d ('"' :: (s.toList ++ '"' :: r)) = some (.text s :: ts) ↔
      plain d s.toList = true ∧ outside d r = some ts := by
  have hstring : outside d ('"' :: (s.toList ++ '"' :: r)) =
      (inside d (s.toList ++ '"' :: r)).map fun r => .text (String.ofList r.1) :: r.2 := by
    rw [outside, if_neg (by decide), if_pos rfl]
  rw [← inside_iff, hstring, Option.map_eq_some_iff]
  constructor
  · rintro ⟨read, hread, heq⟩
    obtain ⟨htext, rfl⟩ := List.cons.inj heq
    have hs : read.1 = s.toList := by rw [← Token.text.inj htext, String.toList_ofList]
    rw [hread, ← hs]
  · intro h
    exact ⟨_, h, by simp⟩

theorem events_pair_iff {k v : String} :
    events ts = some (.pair k v :: es) ↔
      ∃ ts', ts = .text k :: .text v :: ts' ∧ events ts' = some es := by
  fun_cases events ts <;> simp <;> grind

theorem events_opens_iff :
    events ts = some (.opens k :: es) ↔
      ∃ ts', ts = .text k :: .opening :: ts' ∧ events ts' = some es := by
  fun_cases events ts <;> simp <;> grind

theorem scan_eq_some :
    scan d cs = some es ↔ ∃ ts, outside d cs = some ts ∧ events ts = some es :=
  Option.bind_eq_some_iff

theorem scan_closes : scan d ('\x7d' :: cs) = (scan d cs).map (.closes :: ·) := by
  have houtside : outside d ('\x7d' :: cs) = (outside d cs).map (.closing :: ·) := by
    rw [outside, if_neg (by decide), if_neg (by decide), if_neg (by decide), if_pos rfl]
  rw [scan, scan, houtside]
  cases outside d cs with
  | none => rfl
  | some ts =>
    show events (.closing :: ts) = (events ts).map (.closes :: ·)
    rw [events]

/-- **A pair is read back exactly if its key and its value are plain.** -/
theorem scan_pair_iff {k v : String} :
    scan d ('"' :: (k.toList ++ '"' :: ' ' :: '"' :: (v.toList ++ '"' :: cs))) =
        some (.pair k v :: es) ↔
      plain d k.toList = true ∧ plain d v.toList = true ∧ scan d cs = some es := by
  constructor
  · intro h
    obtain ⟨ts, hts, hevents⟩ := scan_eq_some.mp h
    obtain ⟨rest, rfl, hrest⟩ := events_pair_iff.mp hevents
    obtain ⟨hk, hvalue⟩ := outside_text_iff.mp hts
    rw [outside_blank rfl] at hvalue
    obtain ⟨hv, hcs⟩ := outside_text_iff.mp hvalue
    exact ⟨hk, hv, scan_eq_some.mpr ⟨rest, hcs, hrest⟩⟩
  · rintro ⟨hk, hv, h⟩
    obtain ⟨ts, hts, hevents⟩ := scan_eq_some.mp h
    have hvalue := outside_text_iff.mpr ⟨hv, hts⟩
    rw [← outside_blank (c := ' ') rfl] at hvalue
    exact scan_eq_some.mpr ⟨_, outside_text_iff.mpr ⟨hk, hvalue⟩,
      events_pair_iff.mpr ⟨ts, rfl, hevents⟩⟩

theorem scan_opens_iff {gap : List Char} (hgap : gap.all isBlank = true) :
    scan d ('"' :: (k.toList ++ '"' :: (gap ++ '\x7b' :: cs))) = some (.opens k :: es) ↔
      plain d k.toList = true ∧ scan d cs = some es := by
  have hopening : outside d (gap ++ '\x7b' :: cs) = (outside d cs).map (.opening :: ·) := by
    rw [outside_blanks hgap, outside, if_neg (by decide), if_neg (by decide), if_pos rfl]
  constructor
  · intro h
    obtain ⟨ts, hts, hevents⟩ := scan_eq_some.mp h
    obtain ⟨rest, rfl, hrest⟩ := events_opens_iff.mp hevents
    obtain ⟨hk, hblock⟩ := outside_text_iff.mp hts
    obtain ⟨inner, hcs, heq⟩ := Option.map_eq_some_iff.mp (hopening.symm.trans hblock)
    cases heq
    exact ⟨hk, scan_eq_some.mpr ⟨rest, hcs, hrest⟩⟩
  · rintro ⟨hk, h⟩
    obtain ⟨ts, hts, hevents⟩ := scan_eq_some.mp h
    rw [hts] at hopening
    exact scan_eq_some.mpr ⟨_, outside_text_iff.mpr ⟨hk, hopening⟩,
      events_opens_iff.mpr ⟨ts, rfl, hevents⟩⟩

theorem balanced_pairs (depth : Nat) : ∀ kvs : List (String × String),
    balanced depth (kvs.map (fun kv => Event.pair kv.1 kv.2) ++ es) = balanced depth es
  | []        => rfl
  | _ :: kvs => balanced_pairs depth kvs

/-! ### Lines -/

variable {ls : List String}

/-- Lines, each behind a line feed. -/
def below (ls : List String) : List Char := ls.flatMap fun l => '\n' :: l.toList

theorem toList_joinLines (l : String) : ∀ ls : List String,
    (Text.joinLines (l :: ls)).toList = l.toList ++ below ls
  | [] => by simp [Text.joinLines, below]
  | l' :: ls => by
    have hrest := toList_joinLines l' ls
    rw [Text.joinLines, String.intercalate_cons_of_ne_nil (by simp), String.toList_append,
      String.toList_append]
    rw [Text.joinLines] at hrest
    rw [hrest]
    simp [below]

theorem scan_opens_lines {gap : String} (hgap : gap.toList.all isBlank = true)
    (hk : plain d k.toList = true) :
    scan d (below ((gap ++ ("\"" ++ k ++ "\"")) :: (gap ++ "\x7b") :: ls) ++ cs) =
        some (.opens k :: es) ↔ scan d (below ls ++ cs) = some es := by
  have hquote : "\"".toList = ['"'] := rfl
  have hbrace : "\x7b".toList = ['\x7b'] := rfl
  have hchars : below ((gap ++ ("\"" ++ k ++ "\"")) :: (gap ++ "\x7b") :: ls) ++ cs =
      ['\n'] ++ (gap.toList ++ '"' :: (k.toList ++ '"' :: (('\n' :: gap.toList) ++
        '\x7b' :: (below ls ++ cs)))) := by
    simp [below, hquote, hbrace]
  have hgap' : ('\n' :: gap.toList).all isBlank = true := by
    rw [List.all_cons, hgap]
    rfl
  rw [hchars, scan_blanks rfl, scan_blanks hgap, scan_opens_iff hgap', and_iff_right hk]

theorem scan_closes_line {gap : String} (hgap : gap.toList.all isBlank = true) :
    scan d (below ((gap ++ "\x7d") :: ls) ++ cs) =
      (scan d (below ls ++ cs)).map (.closes :: ·) := by
  have hbrace : "\x7d".toList = ['\x7d'] := rfl
  have hchars : below ((gap ++ "\x7d") :: ls) ++ cs =
      ['\n'] ++ (gap.toList ++ '\x7d' :: (below ls ++ cs)) := by
    simp [below, hbrace]
  rw [hchars, scan_blanks rfl, scan_blanks hgap, scan_closes]

end VisualScript.KeyValues
