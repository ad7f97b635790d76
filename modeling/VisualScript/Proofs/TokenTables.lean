import VisualScript.Project.Reader
import VisualScript.Proofs.Checks
import VisualScript.Proofs.Escapes
import VisualScript.Proofs.KeyValues

/-!
# Proofs — Token tables

Reading the text of a token table back.  Keys and values are escaped, so a reader of quoted strings
finds the end of each of them whatever they hold (`KeyValues.scan_quoted_pair`).  The language is
written as it is, but it is one of the known languages, which need no escape (`plain_of_language`).

* `readTable?_text`: a token table is read as its language and its tokens in their order.
* `tables_read_back`: so tables with different languages or tokens have different texts.
-/

namespace VisualScript

/-! ### Escaped strings -/

namespace KeyValues

variable {d : Dialect} {cs : List Char}

theorem escapes_letters : (LocalizationFile.escapes.map Prod.snd).Nodup := by decide

/-- **An escaped string is read as the text it was made from**, up to its own closing quote. -/
theorem inside_escaped (s r : List Char) :
    inside d (Text.escape LocalizationFile.escapes s ++ '"' :: r) =
      (outside d r).map (s, ·) := by
  induction s with
  | nil => exact inside_quote
  | cons c s ih =>
    rw [Text.escape_cons, List.append_assoc]
    rcases Text.escapeChar_cases escapes_letters c with ⟨letter, hchar, hfind⟩ | ⟨hchar, hc⟩
    · have hplain : d.unescape letter = some [c] := by simp only [Dialect.unescape, hfind]
      rw [hchar, List.cons_append, List.singleton_append, inside_escape, hplain, ih,
        Option.bind_some, Option.map_map]
      rfl
    · have hother : c ≠ '\\' ∧ c ≠ '"' ∧ c ≠ '\n' := by simpa [LocalizationFile.escapes] using hc
      have hadmits : d.admits c = true := by simp [Dialect.admits, hother.2.2]
      rw [hchar, List.singleton_append, inside_char hother.2.1 hother.1, if_pos hadmits, ih,
        Option.map_map]
      rfl

theorem outside_quoted (s : String) (r : List Char) :
    outside d ((LocalizationFile.quote s).toList ++ r) = (outside d r).map (.text s :: ·) := by
  have hchars : (LocalizationFile.quote s).toList ++ r =
      '"' :: (Text.escape LocalizationFile.escapes s.toList ++ '"' :: r) := by
    simp [LocalizationFile.quote]
  rw [hchars, outside, if_neg (by decide), if_pos rfl, inside_escaped, Option.map_map]
  simp [Function.comp_def]

/-- A pair of quoted strings is read back, whatever they hold. -/
theorem scan_quoted_pair (k v : String) :
    scan d ((LocalizationFile.quote k).toList ++ ' ' :: ((LocalizationFile.quote v).toList ++ cs)) =
      (scan d cs).map (.pair k v :: ·) := by
  rw [scan, scan, outside_quoted, outside_blank rfl, outside_quoted]
  cases outside d cs with
  | none => rfl
  | some ts =>
    show events (.text k :: .text v :: ts) = (events ts).map (.pair k v :: ·)
    rw [events]

end KeyValues

/-! ### Tables -/

namespace LocalizationFile

open KeyValues

/-- The line of a token. -/
def tokenLine (t : String × String) : String := "\t\t" ++ quote t.1 ++ " " ++ quote t.2

/-- What the text of a token table says. -/
def content (f : LocalizationFile) : List Event :=
  .opens "lang" :: .pair "Language" f.language :: .opens "Tokens" ::
    (f.tokens.map (fun t => Event.pair t.1 t.2) ++ [.closes, .closes])

/-- The tokens up to the end of a table. -/
def tokens? : List Event → Option (List (String × String))
  | [.closes, .closes] => some []
  | .pair k v :: es    => (tokens? es).map ((k, v) :: ·)
  | _                  => none

/-- The language and the tokens of a table. -/
def table? : List Event → Option (String × List (String × String))
  | .opens "lang" :: .pair "Language" language :: .opens "Tokens" :: es =>
      (tokens? es).map (language, ·)
  | _ => none

/-- Reads the text of a token table. -/
def readTable? (d : Dialect) (text : String) : Option (String × List (String × String)) :=
  (read? d text).bind table?

variable {d : Dialect} {f : LocalizationFile}

theorem tokens?_pairs : ∀ ts : List (String × String),
    tokens? (ts.map (fun t => Event.pair t.1 t.2) ++ [.closes, .closes]) = some ts
  | [] => rfl
  | (k, v) :: ts => by
    rw [List.map_cons, List.cons_append, tokens?, tokens?_pairs ts]
    rfl

theorem table?_content (f : LocalizationFile) : table? f.content = some (f.language, f.tokens) := by
  rw [content, table?, tokens?_pairs]
  rfl

theorem balanced_content (f : LocalizationFile) : balanced 0 f.content = true := by
  rw [content, balanced, balanced, balanced, balanced_pairs]
  rfl

/-- The lines of the tokens are read as the tokens. -/
theorem scan_token_lines {cs : List Char} : ∀ ts : List (String × String),
    scan d (below (ts.map tokenLine) ++ cs) =
      (scan d cs).map (ts.map (fun t => Event.pair t.1 t.2) ++ ·)
  | [] => by simp [below]
  | (k, v) :: ts => by
    have hchars : below (((k, v) :: ts).map tokenLine) ++ cs =
        ['\n', '\t', '\t'] ++ ((quote k).toList ++ ' ' :: ((quote v).toList ++
          (below (ts.map tokenLine) ++ cs))) := by
      simp [below, tokenLine]
    rw [hchars, scan_blanks rfl, scan_quoted_pair, scan_token_lines ts, Option.map_map]
    rfl

theorem plain_of_language (h : f.language ∈ languages) : plain d f.language.toList = true := by
  have hall : ∀ l ∈ languages, '"' ∉ l.toList ∧ '\\' ∉ l.toList ∧ '\n' ∉ l.toList := by decide
  obtain ⟨hq, hb, hn⟩ := hall _ h
  exact plain_of_forall fun c hc =>
    ⟨ne_of_mem_of_not_mem hc hq, ne_of_mem_of_not_mem hc hb, ne_of_mem_of_not_mem hc hn⟩

theorem toList_text (f : LocalizationFile) :
    f.text.toList = '"' :: ("lang".toList ++ '"' :: (['\n'] ++ '\x7b' :: (['\n', '\t'] ++
      '"' :: ("Language".toList ++ '"' :: ' ' :: '"' :: (f.language.toList ++ '"' ::
        (below (("\t" ++ ("\"" ++ "Tokens" ++ "\"")) :: ("\t" ++ "\x7b") ::
          f.tokens.map tokenLine) ++ below ["\t" ++ "\x7d", "\x7d", ""])))))) := by
  have hlines : f.lines = "\"lang\"" :: "\x7b" :: ("\t\"Language\" \"" ++ f.language ++ "\"") ::
      "\t\"Tokens\"" :: "\t\x7b" :: (f.tokens.map tokenLine ++ ["\t\x7d", "\x7d", ""]) := rfl
  rw [text, hlines, toList_joinLines]
  simp [below]

/-- A token table in a known language is read as it should be. -/
theorem scan_text (h : f.language ∈ languages) : scan d f.text.toList = some f.content := by
  have hlang : plain d "lang".toList = true := rfl
  have hkey : plain d "Language".toList = true := rfl
  have htokens : plain d "Tokens".toList = true := rfl
  have hend : scan d (below ["\t" ++ "\x7d", "\x7d", ""]) = some [.closes, .closes] := rfl
  rw [toList_text, content, scan_opens_iff rfl, and_iff_right hlang, scan_blanks rfl, scan_pair_iff,
    and_iff_right hkey, and_iff_right (plain_of_language h), scan_opens_lines rfl htokens,
    scan_token_lines, hend]
  rfl

/-- **A token table is read as its language and its tokens in their order.** -/
theorem readTable?_text (h : f.language ∈ languages) :
    readTable? d f.text = some (f.language, f.tokens) := by
  have hread : read? d f.text = some f.content :=
    Option.filter_eq_some_iff.mpr ⟨scan_text h, balanced_content f⟩
  rw [readTable?, hread, Option.bind_some, table?_content]

theorem mem_languages_of_read {v : Json} {language : String}
    (h : (Reading.language v).value? = some language) : language ∈ languages := by
  rw [Reading.language, Checked.value?_andThen, Option.bind_eq_some_iff] at h
  obtain ⟨s, -, h⟩ := h
  split at h
  case isTrue hs =>
    cases h
    exact List.contains_iff_mem.mp hs
  case isFalse => cases h

/-- The tables of a document are in known languages. -/
theorem language_mem_of_read {r : Reading} {v : Json}
    (h : (r.localizationFile v).value? = some f) : f.language ∈ languages := by
  cases v with
  | obj fs =>
    simp only [Reading.localizationFile, Check.value?_record, Checked.value?_seq,
      Checked.value?_functor, Option.bind_eq_some_iff, Option.map_eq_some_iff] at h
    obtain ⟨_, ⟨_, ⟨_, ⟨_, ⟨_, ⟨_, -, rfl⟩, _, -, rfl⟩, language, hlanguage, rfl⟩, _, -, rfl⟩,
      _, -, rfl⟩, _, -, rfl⟩ := h
    rw [Check.value?_fieldOr] at hlanguage
    cases hfound : Check.find? fs ["language"] with
    | none =>
      rw [hfound] at hlanguage
      cases hlanguage
      exact .head _
    | some e =>
      rw [hfound] at hlanguage
      exact mem_languages_of_read hlanguage
  | _ => cases h

/-- **Token tables can be read back.**  Keys and values are written between quotes, with their
escapes made one after the other, backslashes first.  Whatever a reader of quoted strings makes of
other escapes and of a line feed in a string, it reads the text of a table in a known language as
that language and the tokens in their order; so tables with the same text have the same language and
the same tokens.  The tables of a document are in known languages. -/
theorem tables_read_back (d : Dialect) :
    (∀ s, (quote s).toList = '"' :: (Text.escapeInTurn escapes s.toList ++ ['"'])) ∧
    (∀ f : LocalizationFile, f.language ∈ languages →
      readTable? d f.text = some (f.language, f.tokens)) ∧
    (∀ f g : LocalizationFile, f.language ∈ languages → g.language ∈ languages →
      f.text = g.text → f.language = g.language ∧ f.tokens = g.tokens) ∧
    ∀ (r : Reading) (v : Json) (f : LocalizationFile), (r.localizationFile v).value? = some f →
      f.language ∈ languages := by
  refine ⟨fun s => ?_, fun f => readTable?_text, fun f g hf hg htext => ?_,
    fun r v f => language_mem_of_read⟩
  · rw [Text.escapeInTurn_eq (by decide), quote, String.toList_ofList]
  · have hread := @readTable?_text d f hf
    rw [htext, readTable?_text hg] at hread
    exact Prod.mk.inj (Option.some.inj hread).symm

/-- A table whose tokens look like the ends of strings, like escapes and like the end of the
table. -/
def riddles : LocalizationFile :=
  { id := "a", name := "riddles", language := "french"
    tokens := [("\\", "\\\""), ("", "\\n\n"), ("\" \"", "\n\t\x7d\n\x7d\n")]
    createdAt := "", modifiedAt := "" }

/-- The tokens are read back, and in another order they have another text. -/
theorem tables_read_back_riddles :
    riddles.language ∈ languages ∧
    readTable? ⟨.refused, false⟩ riddles.text = some ("french", riddles.tokens) ∧
    riddles.text ≠ { riddles with tokens := riddles.tokens.reverse }.text := by
  have hlanguage : riddles.language ∈ languages := by decide
  obtain ⟨-, hread, honly, -⟩ := tables_read_back ⟨.refused, false⟩
  refine ⟨hlanguage, hread riddles hlanguage, fun htext => ?_⟩
  have hsame := honly riddles { riddles with tokens := riddles.tokens.reverse } hlanguage hlanguage
    htext
  exact absurd hsame.2 (by decide)

end LocalizationFile

end VisualScript
