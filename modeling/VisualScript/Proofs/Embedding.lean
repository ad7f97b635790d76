import VisualScript.Project.Embedding
import VisualScript.Proofs.Base64
import VisualScript.Proofs.Checks
import Mathlib.Data.List.Basic
import Mathlib.Data.List.Infix

/-!
# Proofs — Embedding

A project as a block of comments behind a script.  Its text is written in Base64, cut into pieces,
one to a line, and stands between two markers.

* `Embedding.between?_hosted`: behind a script without markers the lines of the block are found.
* `Embedding.extract?_of_no_marker`: what is extracted then is what its text is read as.
* `Embedding.extract?_of_marker`: where the script has a marker already, the block changes nothing.
-/

namespace VisualScript.Text

/-! ### Occurrences -/

section
variable {part xs ys : List Char} {sep : Char}

theorem prefix_append_cons (h : sep ∉ part) : part <+: xs ++ sep :: ys ↔ part <+: xs := by
  refine ⟨fun hp => ?_, fun hp => hp.trans (List.prefix_append _ _)⟩
  rcases Nat.lt_or_ge xs.length part.length with hlen | hlen
  · have hline : xs ++ [sep] <+: part := by
      rw [List.append_cons] at hp
      exact List.prefix_of_prefix_length_le (List.prefix_append _ _) hp
        (by simpa using Nat.succ_le_of_lt hlen)
    exact absurd (hline.mem (by simp)) h
  · exact List.prefix_of_prefix_length_le hp (List.prefix_append _ _) hlen

/-- A text without some character is found in one of the parts around that character. -/
theorem position?_append (hne : part ≠ []) (h : sep ∉ part) :
    position? part (xs ++ sep :: ys) =
      (position? part xs).or ((position? part ys).map (· + (xs.length + 1))) := by
  have hempty : part.isEmpty = false := by simpa using hne
  induction xs with
  | nil =>
    have hhead : part.isPrefixOf (sep :: ys) = false := by
      rw [← Bool.not_eq_true, List.isPrefixOf_iff_prefix, ← List.nil_append (sep :: ys),
        prefix_append_cons h, List.prefix_nil]
      exact hne
    simp [position?, hhead, hempty]
  | cons c xs ih =>
    have hhead : part.isPrefixOf (c :: (xs ++ sep :: ys)) = part.isPrefixOf (c :: xs) := by
      rw [Bool.eq_iff_iff, List.isPrefixOf_iff_prefix, List.isPrefixOf_iff_prefix,
        ← List.cons_append, prefix_append_cons h]
    rw [List.cons_append, position?, hhead, position?, ih]
    split
    · simp
    · cases position? part xs <;> cases position? part ys <;> simp [Nat.add_assoc]

theorem subset_of_position? {i : Nat} (h : position? part xs = some i) : part ⊆ xs := by
  induction xs generalizing i with
  | nil =>
    rw [position?] at h
    split at h
    · simp_all
    · cases h
  | cons c xs ih =>
    rw [position?] at h
    split at h
    case isTrue hp => exact (List.isPrefixOf_iff_prefix.mp hp).subset
    case isFalse =>
      obtain ⟨j, hj, -⟩ := Option.map_eq_some_iff.mp h
      exact fun c hc => List.mem_cons_of_mem _ (ih hj hc)

theorem position?_eq_none {c : Char} (hc : c ∈ part) (h : c ∉ xs) : position? part xs = none := by
  cases hp : position? part xs with
  | none => rfl
  | some i => exact absurd (subset_of_position? hp hc) h

theorem position?_bound {i : Nat} (h : position? part xs = some i) :
    i + part.length ≤ xs.length := by
  induction xs generalizing i with
  | nil =>
    rw [position?] at h
    split at h
    case isTrue hempty =>
      cases h
      simpa using hempty
    case isFalse => cases h
  | cons c xs ih =>
    rw [position?] at h
    split at h
    case isTrue hp =>
      cases h
      simpa using (List.isPrefixOf_iff_prefix.mp hp).length_le
    case isFalse =>
      obtain ⟨j, hj, rfl⟩ := Option.map_eq_some_iff.mp h
      have := ih hj
      rw [List.length_cons]
      omega

theorem position?_self (hne : part ≠ []) : position? part (part ++ ys) = some 0 := by
  cases part with
  | nil => exact absurd rfl hne
  | cons c cs =>
    rw [List.cons_append, position?, if_pos]
    rw [List.isPrefixOf_iff_prefix, ← List.cons_append]
    exact List.prefix_append _ _

end

/-! ### Lines -/

/-- A line without a line end in it. -/
def IsLine (l : List Char) : Prop := ∀ c ∈ l, isLineEnd c = false

instance (l : List Char) : Decidable (IsLine l) := List.decidableBAll _ l

theorem splitLines_cons {c : Char} (h : isLineEnd c = false) (cs : List Char) :
    splitLines (c :: cs) = consFirst c (splitLines cs) := by
  have hne : c ≠ '\r' := by
    rintro rfl
    revert h
    decide
  rw [splitLines, if_neg (by simp [h])]
  exact fun _ hc => absurd hc hne

theorem splitLines_newline (cs : List Char) : splitLines ('\n' :: cs) = [] :: splitLines cs := by
  rw [splitLines, if_pos (by decide)]
  exact fun _ hc => absurd hc (by decide)

theorem splitLines_append {l : List Char} (hl : IsLine l) (cs : List Char) :
    splitLines (l ++ '\n' :: cs) = l :: splitLines cs := by
  induction l with
  | nil => exact splitLines_newline cs
  | cons c l ih =>
    rw [List.cons_append, splitLines_cons (hl c List.mem_cons_self),
      ih fun d hd => hl d (List.mem_cons_of_mem _ hd)]
    rfl

/-- The lines behind a line feed do not depend on what stands before it. -/
theorem splitLines_suffix (xs ys : List Char) :
    ∃ l ls, splitLines (xs ++ '\n' :: ys) = l :: (ls ++ splitLines ys) := by
  induction xs using splitLines.induct with
  | case1 => exact ⟨[], [], splitLines_newline ys⟩
  | case2 cs ih =>
    obtain ⟨l, ls, ih⟩ := ih
    exact ⟨[], l :: ls, by rw [List.cons_append, List.cons_append, splitLines, ih]; rfl⟩
  | case3 c cs h hend ih =>
    obtain ⟨l, ls, ih⟩ := ih
    by_cases hlast : c = '\r' ∧ cs = []
    · -- a carriage return right before the line feed makes one line end with it
      obtain ⟨rfl, rfl⟩ := hlast
      exact ⟨[], [], splitLines.eq_2 ys⟩
    · refine ⟨[], l :: ls, ?_⟩
      rw [List.cons_append, splitLines.eq_3, if_pos hend, ih]
      · rfl
      · intro cs' hc hcs
        cases cs with
        | nil => exact hlast ⟨hc, rfl⟩
        | cons d cs => exact h cs hc (by rw [(List.cons.inj hcs).1])
  | case4 c cs h hend ih =>
    obtain ⟨l, ls, ih⟩ := ih
    exact ⟨c :: l, ls, by
      rw [List.cons_append, splitLines_cons (by simpa using hend), ih]; rfl⟩

/-- Lines with a line feed behind each. -/
def closedLines (ls : List (List Char)) : List Char := ls.flatMap (· ++ ['\n'])

@[simp] theorem closedLines_nil : closedLines [] = [] := rfl

@[simp] theorem closedLines_cons (l : List Char) (ls : List (List Char)) :
    closedLines (l :: ls) = l ++ '\n' :: closedLines ls := by
  simp [closedLines]

@[simp] theorem closedLines_append (ls ls' : List (List Char)) :
    closedLines (ls ++ ls') = closedLines ls ++ closedLines ls' := by
  simp [closedLines]

theorem toList_joinLines (ls : List String) :
    (joinLines (ls ++ [""])).toList = closedLines (ls.map String.toList) := by
  induction ls with
  | nil => simp [joinLines]
  | cons l ls ih =>
    rw [List.map_cons, closedLines_cons, ← ih, joinLines, joinLines, List.cons_append,
      String.intercalate_cons_of_ne_nil (by simp)]
    simp

theorem splitLines_closedLines {ls : List (List Char)} (h : ∀ l ∈ ls, IsLine l) :
    splitLines (closedLines ls) = ls := by
  induction ls with
  | nil => rfl
  | cons l ls ih =>
    rw [closedLines_cons, splitLines_append (h l List.mem_cons_self),
      ih fun l' hl' => h l' (List.mem_cons_of_mem _ hl')]

/-- A text that no line holds is found behind the lines. -/
theorem position?_closedLines {part ys : List Char} (hne : part ≠ []) (hpart : '\n' ∉ part)
    {ls : List (List Char)} (h : ∀ l ∈ ls, position? part l = none) :
    position? part (closedLines ls ++ ys) =
      (position? part ys).map (· + (closedLines ls).length) := by
  induction ls with
  | nil => simp
  | cons l ls ih =>
    rw [closedLines_cons, List.append_assoc, List.cons_append, position?_append hne hpart,
      h l List.mem_cons_self, ih fun l' hl' => h l' (List.mem_cons_of_mem _ hl')]
    cases position? part ys <;> simp [Nat.add_assoc, Nat.add_comm, Nat.add_left_comm]

/-! ### Trimming -/

theorem dropWhile_eq_self {p : Char → Bool} {cs : List Char} (h : ∀ c ∈ cs.head?, p c = false) :
    cs.dropWhile p = cs := by
  cases cs with
  | nil => rfl
  | cons c cs => simp [h c rfl]

theorem trimBy_eq_self {p : Char → Bool} {cs : List Char} (hfirst : ∀ c ∈ cs.head?, p c = false)
    (hlast : ∀ c ∈ cs.getLast?, p c = false) : trimBy p cs = cs := by
  rw [trimBy, dropWhile_eq_self hfirst, dropWhile_eq_self, List.reverse_reverse]
  rwa [List.head?_reverse]

theorem trimBy_of_forall {p : Char → Bool} {cs : List Char} (h : ∀ c ∈ cs, p c = false) :
    trimBy p cs = cs :=
  trimBy_eq_self (fun c hc => h c (List.mem_of_head? hc)) fun c hc => h c (List.mem_of_getLast? hc)

end VisualScript.Text

namespace VisualScript.Embedding

open Text

/-! ### Lines of a project -/

theorem flatten_chunksOf {size : Nat} (hsize : 0 < size) :
    ∀ {fuel : Nat} {cs : List Char}, cs.length ≤ fuel → (chunksOf size fuel cs).flatten = cs
  | 0, [], _ => rfl
  | 0, _ :: _, h => absurd h (by simp)
  | _ + 1, [], _ => rfl
  | fuel + 1, c :: cs, h => by
    have hfuel : ((c :: cs).drop size).length ≤ fuel := by
      rw [List.length_drop]
      omega
    rw [chunksOf, List.flatten_cons, flatten_chunksOf hsize hfuel, List.take_append_drop]

theorem flatten_chunks {size : Int} (hsize : 0 < size) (cs : List Char) :
    (chunks size cs).flatten = cs := by
  rw [chunks, if_neg (by omega)]
  exact flatten_chunksOf (by omega) le_rfl

/-- The comment line that carries a piece. -/
def comment (piece : List Char) : List Char := '/' :: '/' :: ' ' :: piece

theorem payload_comment {piece : List Char} (h : ∀ c ∈ piece, isBlank c = false) :
    payload (comment piece) = piece := by
  cases piece with
  | nil => decide
  | cons c cs =>
    have hline : trimBy isBlank (comment (c :: cs)) = comment (c :: cs) := by
      refine trimBy_eq_self ?_ ?_
      · rintro _ ⟨⟩
        decide
      · intro d hd
        rw [comment, List.getLast?_cons_cons, List.getLast?_cons_cons, List.getLast?_cons_cons]
          at hd
        exact h d (List.mem_of_getLast? hd)
    have hpiece : trimBy isBlank (' ' :: c :: cs) = trimBy isBlank (c :: cs) := by
      rw [trimBy, List.dropWhile_cons_of_pos (by decide)]
      rfl
    rw [payload, hline, comment]
    simp only
    rw [hpiece, trimBy_of_forall h]

/-- The lines of a project: its pieces in comments between the markers. -/
def block (pieces : List (List Char)) : List (List Char) :=
  (beginMarker.toList :: pieces.map comment) ++ [endMarker.toList]

/-- A script with a project behind it. -/
def hosted (code : List Char) (pieces : List (List Char)) : List Char :=
  code ++ '\n' :: '\n' :: closedLines (block pieces)

theorem embed_ok {settings : Settings} {given : Option Int} {code : String} {p : Project}
    (hp : p.isWritable = true) (hsize : 0 < chunkSize settings given) :
    ∃ code', embed settings given code p = .ok code' ∧ code'.toList =
      hosted code.toList (chunks (chunkSize settings given) (encode ⟨settings.formatVersion, p⟩)) := by
  refine ⟨_, by rw [embed, hp, Bool.not_true, if_neg (by simp), if_neg (by omega)], ?_⟩
  generalize chunks _ _ = pieces
  rw [show [endMarker, ""] = [endMarker] ++ [""] from rfl, ← List.append_assoc]
  simp only [String.toList_append, toList_joinLines]
  simp [hosted, block, Function.comp_def,
    show comment = fun piece => '/' :: '/' :: ' ' :: piece from rfl]

variable {code : List Char} {pieces : List (List Char)}

theorem beginMarker_no_newline : '\n' ∉ beginMarker.toList := by decide

theorem endMarker_no_newline : '\n' ∉ endMarker.toList := by decide

/-- A marker is found in the script, or else behind it. -/
theorem position?_hosted {part : List Char} (hne : part ≠ []) (hpart : '\n' ∉ part) :
    position? part (hosted code pieces) =
      (position? part code).or
        ((position? part (closedLines (block pieces))).map (· + (code.length + 2))) := by
  have hinner := @position?_append part [] (closedLines (block pieces)) '\n' hne hpart
  have hempty : position? part [] = none := by simp [position?, hne]
  rw [hosted, position?_append hne hpart, ← List.nil_append ('\n' :: closedLines _), hinner, hempty]
  cases position? part (closedLines (block pieces)) with
  | none => rfl
  | some i =>
    simp only [Option.none_or, Option.map_some, List.length_nil]
    rw [show i + (0 + 1) + (code.length + 1) = i + (code.length + 2) by omega]

theorem position?_begin_block : position? beginMarker.toList (closedLines (block pieces)) = some 0 := by
  rw [block, List.cons_append, closedLines_cons]
  exact position?_self (by decide)

/-- Every piece is written in the alphabet of the encoding. -/
def Encoded (pieces : List (List Char)) : Prop :=
  ∀ piece ∈ pieces, ∀ c ∈ piece, Base64.InAlphabet c

theorem inAlphabet_plain {c : Char} (h : Base64.InAlphabet c) :
    isBlank c = false ∧ isLineEnd c = false ∧ c ≠ '@' := by
  have hall : (Base64.alphabet ++ ['=']).all (fun c => !isBlank c && !isLineEnd c && c != '@') := by
    decide +kernel
  have hc := List.all_eq_true.mp hall c (by simpa [Base64.InAlphabet] using h)
  simpa [and_assoc] using hc

theorem position?_end_block (h : Encoded pieces) :
    position? endMarker.toList (closedLines (block pieces)) =
      some (closedLines (beginMarker.toList :: pieces.map comment)).length := by
  have hlines : ∀ l ∈ beginMarker.toList :: pieces.map comment,
      position? endMarker.toList l = none := by
    intro l hl
    rcases List.mem_cons.mp hl with rfl | hl
    · decide
    · obtain ⟨piece, hpiece, rfl⟩ := List.mem_map.mp hl
      refine position?_eq_none (c := '@') (by decide) fun hmem => ?_
      simp only [comment, List.mem_cons] at hmem
      rcases hmem with hc | hc | hc | hc
      · cases hc
      · cases hc
      · cases hc
      · exact (inAlphabet_plain (h piece hpiece _ hc)).2.2 rfl
  rw [block, closedLines_append, position?_closedLines (by decide) endMarker_no_newline hlines,
    show closedLines [endMarker.toList] = endMarker.toList ++ ['\n'] by simp,
    position?_self (by decide)]
  simp

/-- Between the markers of a project stand its comment lines. -/
theorem between?_hosted (h : Encoded pieces) (hbegin : position? beginMarker.toList code = none)
    (hend : position? endMarker.toList code = none) :
    between? (hosted code pieces) = some ('\n' :: closedLines (pieces.map comment)) := by
  have hcut : hosted code pieces = (code ++ '\n' :: '\n' :: beginMarker.toList) ++
      (('\n' :: closedLines (pieces.map comment)) ++ closedLines [endMarker.toList]) := by
    simp [hosted, block]
  rw [between?, position?_hosted (by decide) beginMarker_no_newline,
    position?_hosted (by decide) endMarker_no_newline, hbegin, hend, position?_begin_block,
    position?_end_block h]
  simp only [Option.none_or, Option.map_some]
  rw [if_neg (by omega), hcut, List.drop_left', List.take_left']
  · simp only [closedLines_cons, List.length_append, List.length_cons, ← String.length_toList]
    omega
  · simp only [List.length_append, List.length_cons, ← String.length_toList]
    omega

/-- The lines between the markers carry the pieces, one after the other. -/
theorem payload_lines (h : Encoded pieces) :
    (splitLines ('\n' :: closedLines (pieces.map comment))).flatMap payload = pieces.flatten := by
  have hlines : ∀ l ∈ pieces.map comment, IsLine l := by
    intro l hl c hc
    obtain ⟨piece, hpiece, rfl⟩ := List.mem_map.mp hl
    simp only [comment, List.mem_cons] at hc
    rcases hc with rfl | rfl | rfl | hc
    · decide
    · decide
    · decide
    · exact (inAlphabet_plain (h piece hpiece c hc)).2.1
  rw [splitLines_newline, splitLines_closedLines hlines, List.flatMap_cons,
    show payload [] = [] by decide, List.nil_append, List.flatMap_map, List.flatten_eq_flatMap]
  refine List.flatMap_congr fun piece hpiece => ?_
  exact payload_comment fun c hc => (inAlphabet_plain (h piece hpiece c hc)).1

/-! ### Older markers -/

theorem not_inAlphabet_at : ¬ Base64.InAlphabet '@' :=
  fun h => (inAlphabet_plain h).2.2 rfl

/-- A marker among the lines spoils what they carry. -/
theorem decode?_marker {ls : List (List Char)} (h : beginMarker.toList ∈ ls) :
    Base64.decode? (ls.flatMap payload) = none := by
  have hmem : '@' ∈ ls.flatMap payload := List.mem_flatMap.mpr ⟨_, h, by decide⟩
  cases hdecode : Base64.decode? (ls.flatMap payload) with
  | none => rfl
  | some bytes => exact absurd (Base64.inAlphabet_of_decode? hdecode _ hmem) not_inAlphabet_at

/-- When a script has both markers already, what is between them stays. -/
theorem between?_of_both {b e : Nat} (hbegin : position? beginMarker.toList code = some b)
    (hend : position? endMarker.toList code = some e) :
    between? (hosted code pieces) = between? code := by
  have hbound := position?_bound hbegin
  have hbound' := position?_bound hend
  rw [between?, between?, position?_hosted (by decide) beginMarker_no_newline,
    position?_hosted (by decide) endMarker_no_newline, hbegin, hend]
  simp only [Option.some_or]
  split
  · rfl
  · rw [hosted, List.drop_append_of_le_length, List.take_append_of_le_length]
    · rw [List.length_drop]
      omega
    · rw [← String.length_toList]
      exact hbound

theorem between?_of_end {e : Nat} (hbegin : position? beginMarker.toList code = none)
    (hend : position? endMarker.toList code = some e) : between? (hosted code pieces) = none := by
  have hbound := position?_bound hend
  rw [between?, position?_hosted (by decide) beginMarker_no_newline,
    position?_hosted (by decide) endMarker_no_newline, hbegin, hend, position?_begin_block]
  simp only [Option.none_or, Option.some_or, Option.map_some]
  exact if_pos (by omega)

/-- When a script has a begin marker only, the new marker is among the lines that are found. -/
theorem mem_lines_of_begin (h : Encoded pieces) {b : Nat}
    (hbegin : position? beginMarker.toList code = some b)
    (hend : position? endMarker.toList code = none) :
    ∃ body, between? (hosted code pieces) = some body ∧ beginMarker.toList ∈ splitLines body := by
  have hbound := position?_bound hbegin
  have hcut : hosted code pieces = (code ++ '\n' :: '\n' ::
      closedLines (beginMarker.toList :: pieces.map comment)) ++ closedLines [endMarker.toList] := by
    simp [hosted, block]
  refine ⟨code.drop (b + beginMarker.length) ++ '\n' :: '\n' ::
      closedLines (beginMarker.toList :: pieces.map comment), ?_, ?_⟩
  · rw [between?, position?_hosted (by decide) beginMarker_no_newline,
      position?_hosted (by decide) endMarker_no_newline, hbegin, hend, position?_end_block h]
    simp only [Option.none_or, Option.some_or, Option.map_some]
    rw [String.length_toList] at hbound
    rw [if_neg (by omega), hcut, List.drop_append_of_le_length, List.drop_append_of_le_length hbound,
      List.take_left']
    · simp only [List.length_append, List.length_drop, List.length_cons]
      omega
    · simp only [List.length_append]
      omega
  · obtain ⟨l, ls, hlines⟩ := splitLines_suffix (code.drop (b + beginMarker.length))
      ('\n' :: closedLines (beginMarker.toList :: pieces.map comment))
    rw [hlines, splitLines_newline, closedLines_cons, splitLines_append (by decide)]
    simp

/-- **A script with a marker keeps what it carries**: a project behind it changes nothing. -/
theorem extract?_of_marker (r : Reading) {host code : String} (h : Encoded pieces)
    (hhost : host.toList = hosted code.toList pieces)
    (hmarker : occursIn beginMarker.toList code.toList = true ∨
      occursIn endMarker.toList code.toList = true) :
    extract? r host = extract? r code := by
  rw [extract?, extract?, hhost]
  cases hbegin : position? beginMarker.toList code.toList with
  | none =>
    cases hend : position? endMarker.toList code.toList with
    | none => simp [occursIn, hbegin, hend] at hmarker
    | some e =>
      rw [between?_of_end hbegin hend, between?, hbegin]
  | some b =>
    cases hend : position? endMarker.toList code.toList with
    | none =>
      obtain ⟨body, hbody, hmem⟩ := mem_lines_of_begin h hbegin hend
      rw [hbody, between?, hbegin, hend]
      simp only [bind, Option.bind, decode?, decode?_marker hmem]
    | some e => rw [between?_of_both hbegin hend]

/-! ### Bytes -/

theorem toList_loop (bs : ByteArray) (i : Nat) (taken : List UInt8) :
    ByteArray.toList.loop bs i taken = taken.reverse ++ bs.data.toList.drop i := by
  rw [ByteArray.toList.loop]
  split
  case isTrue h =>
    have hlen : i < bs.data.toList.length := by simpa using h
    have hget : bs.get! i = bs.data.toList[i] := by
      rw [ByteArray.get!, Array.getElem_toList, getElem!_pos]
    rw [toList_loop bs (i + 1), hget, List.reverse_cons, List.append_assoc, List.singleton_append,
      ← List.drop_eq_getElem_cons hlen]
  case isFalse h =>
    rw [List.drop_of_length_le, List.append_nil]
    simpa using h
termination_by bs.size - i

theorem toByteArray_toList (bs : ByteArray) : ByteArray.mk bs.toList.toArray = bs := by
  rw [ByteArray.toList, toList_loop]
  simp

theorem fromUTF8?_toUTF8 (s : String) : String.fromUTF8? s.toUTF8 = some s := by
  rw [String.fromUTF8?, String.toUTF8, dif_pos s.isValidUTF8]
  rfl

/-- Decoding finds the text of the project again. -/
theorem decode?_encode (r : Reading) (e : Envelope) :
    decode? r (encode e) = (r.ofText Reading.envelope e.text).value?.map Envelope.project := by
  rw [decode?, encode, Base64.decode?_encode]
  simp only [bind, Option.bind, toByteArray_toList, fromUTF8?_toUTF8]
  cases r.ofText Reading.envelope e.text <;> rfl

theorem encoded_chunks {size : Int} (hsize : 0 < size) (e : Envelope) :
    Encoded (chunks size (encode e)) := by
  intro piece hpiece c hc
  refine Base64.inAlphabet_of_decode? (Base64.decode?_encode e.text.toUTF8.toList) c ?_
  have hflatten := flatten_chunks hsize (encode e)
  rw [encode] at hflatten
  rw [← hflatten]
  exact List.mem_flatten.mpr ⟨piece, hpiece, hc⟩

/-- **In a script without markers the project that is found is the one behind it.** -/
theorem extract?_of_no_marker (r : Reading) {host code : String} {size : Int} (hsize : 0 < size)
    (e : Envelope) (hhost : host.toList = hosted code.toList (chunks size (encode e)))
    (hbegin : occursIn beginMarker.toList code.toList = false)
    (hend : occursIn endMarker.toList code.toList = false) :
    extract? r host = (r.ofText Reading.envelope e.text).value?.map Envelope.project := by
  have hpieces := encoded_chunks hsize e
  rw [extract?, hhost, between?_hosted hpieces (by simpa [occursIn] using hbegin)
    (by simpa [occursIn] using hend)]
  simp only [bind, Option.bind]
  rw [payload_lines hpieces, flatten_chunks hsize, decode?_encode]

end VisualScript.Embedding
