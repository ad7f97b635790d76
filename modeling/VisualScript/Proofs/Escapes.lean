import Mathlib.Data.List.Induction
import VisualScript.Proofs.Tables
import VisualScript.Text.Escape

/-!
# Proofs — Escapes

Texts that are written with backslash escapes between quotes.  The escapes of a table are made all
at once; made one after the other, each in the whole text, they give the same if none touches what
one before it has written (`escapeInTurn_eq`).

A quote ends a text unless it is escaped, that is, unless an odd number of backslashes stands right
before it.

* `readQuoted?_escape`: a reader that undoes the escapes gets the text back, whatever follows it.
* `closing_quote_iff`: the quote that closes the text is the only one in it that is not escaped.
-/

namespace VisualScript.Text

/-- The text with another text in place of every occurrence of a character. -/
def replaceChar (old : Char) (new cs : List Char) : List Char :=
  cs.flatMap fun c => if c = old then new else [c]

/-- The text with the escapes of a table made one after the other, each in the whole text. -/
def escapeInTurn (table : EscapeTable) (cs : List Char) : List Char :=
  table.foldl (fun cs e => replaceChar e.1 ['\\', e.2] cs) cs

/-- No escape of the table touches what one before it has written. -/
def EscapeTable.InTurn (table : EscapeTable) : Prop :=
  table.Pairwise fun e later => later.1 ≠ e.1 ∧ later.1 ≠ '\\' ∧ later.1 ≠ e.2

instance (table : EscapeTable) : Decidable table.InTurn :=
  inferInstanceAs (Decidable (List.Pairwise _ _))

/-- What it takes for a text between quotes to be read back. -/
structure EscapeTable.Faithful (table : EscapeTable) : Prop where
  /-- A letter stands for one character only. -/
  letters : (table.map Prod.snd).Nodup
  slash   : '\\' ∈ table.map Prod.fst
  quote   : '"' ∈ table.map Prod.fst

/-- Reads a text up to the quote that closes it; gives the text with its escapes undone, and what
follows the quote. -/
def readQuoted? (table : EscapeTable) : List Char → Option (List Char × List Char)
  | []              => none
  | '"' :: cs       => some ([], cs)
  | '\\' :: c :: cs => do
      let (plain, _) ← table.find? (·.2 == c)
      let (s, rest) ← readQuoted? table cs
      return (plain :: s, rest)
  | c :: cs         => (readQuoted? table cs).map fun (s, rest) => (c :: s, rest)

/-- What stands behind this text is escaped: an odd number of backslashes stands right before it. -/
def EndsInEscape (cs : List Char) : Prop :=
  (cs.reverse.takeWhile (· == '\\')).length % 2 = 1

instance (cs : List Char) : Decidable (EndsInEscape cs) := inferInstanceAs (Decidable (_ = _))

/-! ### One escape after the other -/

variable {table : EscapeTable} {c : Char}

@[simp] theorem escape_nil : escape table [] = [] := rfl

theorem escape_cons (cs : List Char) :
    escape table (c :: cs) = escapeChar table c ++ escape table cs := rfl

theorem escapeChar_cons (e : Char × Char) :
    escapeChar (e :: table) c = if c = e.1 then ['\\', e.2] else escapeChar table c := by
  obtain ⟨key, letter⟩ := e
  rw [escapeChar, escapeChar, List.lookup_cons]
  cases h : c == key with
  | true => simp [eq_of_beq h]
  | false => simp [beq_eq_false_iff_ne.mp h]

theorem escapeChar_of_not_mem (h : c ∉ table.map Prod.fst) : escapeChar table c = [c] := by
  have hnone : table.lookup c = none := by
    refine List.lookup_eq_none_iff.mpr fun e he => bne_iff_ne.mpr ?_
    rintro rfl
    exact h (List.mem_map_of_mem he)
  rw [escapeChar, hnone]

/-- **Escapes made in turn are the escapes made at once**, if none touches what one before it has
written. -/
theorem escapeInTurn_eq : ∀ {table : EscapeTable}, table.InTurn →
    ∀ cs, escapeInTurn table cs = escape table cs
  | [], _, cs => (List.flatMap_singleton' cs).symm
  | e :: table, h, cs => by
    obtain ⟨hlater, hrest⟩ := List.pairwise_cons.mp h
    have hkept : ∀ d, (∀ e' ∈ table, e'.1 ≠ d) → escapeChar table d = [d] := fun d hd =>
      escapeChar_of_not_mem fun hm => by
        obtain ⟨e', he', rfl⟩ := List.mem_map.mp hm
        exact hd e' he' rfl
    -- the first escape, then the others in what it has written
    have hchar : ∀ c, escape table (if c = e.1 then ['\\', e.2] else [c]) =
        escapeChar (e :: table) c := by
      intro c
      rw [escapeChar_cons]
      split
      case isTrue =>
        have hslash := hkept '\\' fun e' he' => (hlater e' he').2.1
        have hletter := hkept e.2 fun e' he' => (hlater e' he').2.2
        rw [escape_cons, escape_cons, escape_nil, hslash, hletter]
        rfl
      case isFalse => rw [escape_cons, escape_nil, List.append_nil]
    calc escapeInTurn (e :: table) cs
        = escape table (replaceChar e.1 ['\\', e.2] cs) := escapeInTurn_eq hrest _
      _ = cs.flatMap fun c => escape table (if c = e.1 then ['\\', e.2] else [c]) := by
          rw [escape, replaceChar, List.flatMap_assoc]
          rfl
      _ = escape (e :: table) cs := by
          simp only [hchar]
          rfl

/-! ### Reading -/

/-- A character is escaped with a letter that stands for it, or it is written as itself. -/
theorem escapeChar_cases (h : (table.map Prod.snd).Nodup) (c : Char) :
    (∃ letter, escapeChar table c = ['\\', letter] ∧
        table.find? (·.2 == letter) = some (c, letter)) ∨
      escapeChar table c = [c] ∧ c ∉ table.map Prod.fst := by
  by_cases hc : c ∈ table.map Prod.fst
  · obtain ⟨e, he, rfl⟩ := List.mem_map.mp hc
    obtain ⟨letter, hletter⟩ :=
      Option.isSome_iff_exists.mp (Assoc.lookup_isSome_of_mem (show (e.1, e.2) ∈ table from he))
    refine .inl ⟨letter, by rw [escapeChar, hletter], ?_⟩
    have hmem := Assoc.mem_of_lookup hletter
    cases hfind : table.find? (·.2 == letter) with
    | none => simpa using List.find?_eq_none.mp hfind _ hmem
    | some e' =>
      have hsame : e'.2 = letter := by simpa using List.find?_some hfind
      have hfound := List.mem_of_find?_eq_some hfind
      rw [List.inj_on_of_nodup_map h hfound hmem hsame]
  · exact .inr ⟨escapeChar_of_not_mem hc, hc⟩

/-- **A text between quotes is read back**, and nothing behind its closing quote is read. -/
theorem readQuoted?_escape (h : table.Faithful) (cs rest : List Char) :
    readQuoted? table (escape table cs ++ '"' :: rest) = some (cs, rest) := by
  induction cs with
  | nil => rfl
  | cons c cs ih =>
    rw [escape_cons, List.append_assoc]
    rcases escapeChar_cases h.letters c with ⟨letter, hchar, hfind⟩ | ⟨hchar, hc⟩
    · rw [hchar, List.cons_append, List.cons_append, List.nil_append, readQuoted?, hfind, ih]
      rfl
    · have hquote : c ≠ '"' := fun he => hc (he ▸ h.quote)
      have hslash : c ≠ '\\' := fun he => hc (he ▸ h.slash)
      rw [hchar, List.singleton_append, readQuoted?, ih]
      · rfl
      · exact hquote
      · exact fun _ _ he => absurd he hslash

theorem not_mem_escape (h : c ∈ table.map Prod.fst) (hslash : c ≠ '\\')
    (hletters : c ∉ table.map Prod.snd) (cs : List Char) : c ∉ escape table cs := by
  intro hm
  obtain ⟨d, -, hd⟩ := List.mem_flatMap.mp hm
  rw [escapeChar] at hd
  split at hd
  case h_1 letter hlookup =>
    have hletter : letter ∈ table.map Prod.snd := List.mem_map_of_mem (Assoc.mem_of_lookup hlookup)
    rcases List.mem_cons.mp hd with rfl | hd
    · exact hslash rfl
    · exact hletters (List.mem_singleton.mp hd ▸ hletter)
  case h_2 hlookup =>
    obtain ⟨e, he, hkey⟩ := List.mem_map.mp h
    rw [List.mem_singleton.mp hd] at hkey
    simpa [hkey] using List.lookup_eq_none_iff.mp hlookup e he

/-! ### Quotes that are escaped -/

/-- Whether what follows a character is escaped, if the character is or is not. -/
def escaping (escaped : Bool) (c : Char) : Bool := !escaped && c == '\\'

theorem foldl_escaping (cs : List Char) : cs.foldl escaping false = true ↔ EndsInEscape cs := by
  induction cs using List.reverseRecOn with
  | nil => simp [EndsInEscape]
  | append_singleton cs c ih =>
    rw [EndsInEscape] at ih ⊢
    rw [List.foldl_append, List.foldl_cons, List.foldl_nil, escaping, List.reverse_append,
      List.reverse_singleton, List.singleton_append, List.takeWhile_cons]
    by_cases hc : c = '\\'
    · simp only [hc, beq_self_eq_true, Bool.and_true, if_true, List.length_cons,
        Bool.not_eq_true', ← Bool.not_eq_true, ih]
      omega
    · simp [hc]

/-- An escape is complete, so nothing behind an escaped text is escaped by it. -/
theorem foldl_escaping_escape (h : table.Faithful) (cs : List Char) :
    (escape table cs).foldl escaping false = false := by
  induction cs with
  | nil => rfl
  | cons c cs ih =>
    rw [escape_cons, List.foldl_append]
    rcases escapeChar_cases h.letters c with ⟨letter, hchar, -⟩ | ⟨hchar, hc⟩
    · rw [hchar]
      exact ih
    · have hslash : (c == '\\') = false := beq_eq_false_iff_ne.mpr fun he => hc (he ▸ h.slash)
      rw [hchar, List.foldl_cons, List.foldl_nil, escaping, hslash]
      exact ih

/-- Every quote in an escaped text is escaped. -/
theorem foldl_escaping_of_quote (h : table.Faithful) {cs after : List Char} :
    ∀ {before : List Char}, escape table cs = before ++ '"' :: after →
      before.foldl escaping false = true := by
  induction cs with
  | nil =>
    intro before heq
    simp at heq
  | cons c cs ih =>
    intro before heq
    rw [escape_cons] at heq
    rcases escapeChar_cases h.letters c with ⟨letter, hchar, -⟩ | ⟨hchar, hc⟩
    · rw [hchar] at heq
      cases before with
      | nil => cases (List.cons.inj heq).1
      | cons d before =>
        obtain ⟨hd, htail⟩ := List.cons.inj heq
        subst hd
        cases before with
        | nil => rfl
        | cons d before =>
          have hinner := @ih before (List.cons.inj htail).2
          exact hinner
    · rw [hchar] at heq
      cases before with
      | nil => exact absurd h.quote ((List.cons.inj heq).1 ▸ hc)
      | cons d before =>
        obtain ⟨hd, htail⟩ := List.cons.inj heq
        subst hd
        have hslash : (c == '\\') = false := beq_eq_false_iff_ne.mpr fun he => hc (he ▸ h.slash)
        rw [List.foldl_cons, escaping, hslash]
        exact ih htail

/-- **The quote that closes a text is the only one in it that is not escaped.** -/
theorem closing_quote_iff (h : table.Faithful) {cs before after : List Char}
    (heq : '"' :: (escape table cs ++ ['"']) = before ++ '"' :: after) (hne : before ≠ []) :
    ¬ EndsInEscape before ↔ after = [] := by
  obtain ⟨d, before, rfl⟩ := List.exists_cons_of_ne_nil hne
  obtain ⟨hd, hbody⟩ := List.cons.inj heq
  subst hd
  rw [← foldl_escaping, List.foldl_cons]
  show ¬ before.foldl escaping false = true ↔ after = []
  rcases List.eq_nil_or_concat' after with rfl | ⟨after, d, rfl⟩
  · have hbefore : escape table cs = before := List.append_inj_left' hbody rfl
    simp [← hbefore, foldl_escaping_escape h]
  · have hinner : escape table cs = before ++ '"' :: after :=
      List.append_inj_left' (hbody.trans (List.append_assoc before ('"' :: after) [d]).symm) rfl
    simp [foldl_escaping_of_quote h hinner]

end VisualScript.Text
