import VisualScript.Proofs.Embedding
import VisualScript.Proofs.Escapes

/-!
# Proofs — Reflow

A script that has been laid out anew carries the same project.  What is carried stands between the
first markers, in the comment lines there; it does not depend on how the lines end, nor on the white
space around them.

* `Text.Padded`: white space has been added before and after the lines of a text.
* `Embedding.carried_of_padded`: the lines still carry the same.
* `Embedding.position?_padded`: the end marker is found behind the padded lines, because no white
  space at the end of a line makes a marker of something else.
* `Embedding.between?_crlf`: other line ends, everywhere in a script, keep the markers in place.
* `Embedding.extract?_reflowed`: so the same project is found.
-/

namespace VisualScript.Text

variable {c : Char} {after cs : List Char} {p : Char → Bool} {i : Nat}

/-! ### White space around lines -/

/-- White space is added before and after the lines of a text.  A line may be taken to end at any of
the line ends in it. -/
inductive Padded : List Char → List Char → Prop where
  | last (l : List Char) {before after : List Char} (blank : (before ++ after).all isBlank = true) :
      Padded l (before ++ l ++ after)
  | line (l : List Char) {before after rest rest' : List Char} {e : Char}
      (blank : (before ++ after).all isBlank = true) (lineEnd : isLineEnd e = true)
      (below : Padded rest rest') : Padded (l ++ e :: rest) (before ++ l ++ after ++ e :: rest')

/-- The text with a carriage return before every line feed. -/
def crlf (cs : List Char) : List Char := replaceChar '\n' ['\r', '\n'] cs

@[simp] theorem crlf_nil : crlf [] = [] := rfl

theorem crlf_cons (c : Char) (cs : List Char) :
    crlf (c :: cs) = (if c = '\n' then ['\r', '\n'] else [c]) ++ crlf cs := rfl

@[simp] theorem crlf_newline (cs : List Char) : crlf ('\n' :: cs) = '\r' :: '\n' :: crlf cs := rfl

theorem crlf_cons_of_ne (h : c ≠ '\n') (cs : List Char) : crlf (c :: cs) = c :: crlf cs := by
  rw [crlf_cons, if_neg h, List.singleton_append]

@[simp] theorem crlf_append (xs ys : List Char) : crlf (xs ++ ys) = crlf xs ++ crlf ys :=
  List.flatMap_append

theorem crlf_eq_self (h : '\n' ∉ cs) : crlf cs = cs := by
  induction cs with
  | nil => rfl
  | cons c cs ih =>
    rw [List.mem_cons, not_or] at h
    rw [crlf_cons_of_ne (Ne.symm h.1), ih h.2]

/-- A carriage return is white space at the end of its line. -/
theorem padded_crlf (cs : List Char) : Padded cs (crlf cs) := by
  by_cases hmem : '\n' ∈ cs
  · obtain ⟨l, rest, hcs, hl⟩ := List.eq_append_cons_of_mem hmem
    have hless : rest.length < cs.length := by simp [hcs]; omega
    have hpad := @Padded.line l [] ['\r'] rest (crlf rest) '\n' rfl rfl (padded_crlf rest)
    rw [hcs]
    simpa [crlf_eq_self hl] using hpad
  · rw [crlf_eq_self hmem]
    simpa using @Padded.last cs [] [] rfl
termination_by cs.length

/-! ### Trimming -/

theorem trimBy_cons (h : p c = true) (cs : List Char) : trimBy p (c :: cs) = trimBy p cs := by
  rw [trimBy, List.dropWhile_cons_of_pos h, trimBy]

theorem trimBy_concat (h : p c = true) (cs : List Char) : trimBy p (cs ++ [c]) = trimBy p cs := by
  rw [trimBy, List.dropWhile_append, trimBy]
  split
  case isTrue hempty =>
    rw [List.isEmpty_iff.mp hempty, List.dropWhile_cons_of_pos h]
    rfl
  case isFalse =>
    rw [List.reverse_append, List.reverse_singleton, List.singleton_append,
      List.dropWhile_cons_of_pos h]

/-! ### Occurrences -/

variable {part xs ys : List Char}

/-- Where a text is found, it stands. -/
theorem exists_of_position? (h : position? part xs = some i) :
    ∃ before after, xs = before ++ part ++ after ∧ before.length = i := by
  induction xs generalizing i with
  | nil =>
    rw [position?] at h
    split at h
    case isTrue hempty =>
      cases h
      exact ⟨[], [], by simpa using hempty, rfl⟩
    case isFalse => cases h
  | cons c xs ih =>
    rw [position?] at h
    split at h
    case isTrue hp =>
      cases h
      obtain ⟨after, hafter⟩ := List.isPrefixOf_iff_prefix.mp hp
      exact ⟨[], after, hafter.symm, rfl⟩
    case isFalse =>
      obtain ⟨j, hj, rfl⟩ := Option.map_eq_some_iff.mp h
      obtain ⟨before, after, rfl, rfl⟩ := ih hj
      exact ⟨c :: before, after, rfl, rfl⟩

theorem prefix_append_cases (h : part <+: xs ++ ys) :
    part <+: xs ∨ ∃ c r, part = xs ++ c :: r ∧ c :: r <+: ys := by
  rcases Nat.lt_or_ge xs.length part.length with hlen | hlen
  · obtain ⟨r, rfl⟩ := List.prefix_of_prefix_length_le (List.prefix_append xs ys) h hlen.le
    cases r with
    | nil => simp at hlen
    | cons c r => exact .inr ⟨c, r, rfl, (List.prefix_append_right_inj xs).mp h⟩
  · exact .inl (List.prefix_of_prefix_length_le h (List.prefix_append _ _) hlen)

theorem position?_cons_eq_some :
    position? part (c :: xs) = some (i + 1) ↔ ¬ part <+: c :: xs ∧ position? part xs = some i := by
  rw [position?, ← List.isPrefixOf_iff_prefix]
  split <;> simp_all

theorem position?_cons_eq_none :
    position? part (c :: xs) = none ↔ ¬ part <+: c :: xs ∧ position? part xs = none := by
  rw [position?, ← List.isPrefixOf_iff_prefix]
  split <;> simp_all

/-- The first occurrence does not depend on what stands behind it. -/
theorem position?_append_part (hne : part ≠ []) {zs : List Char}
    (h : position? part (xs ++ (part ++ ys)) = some xs.length) :
    position? part (xs ++ (part ++ zs)) = some xs.length := by
  induction xs with
  | nil => exact position?_self hne
  | cons c xs ih =>
    rw [List.cons_append] at h ⊢
    obtain ⟨hhead, htail⟩ := position?_cons_eq_some.mp h
    refine position?_cons_eq_some.mpr ⟨fun hp => hhead ?_, ih htail⟩
    have hlength : part.length ≤ (c :: xs ++ part).length := by
      simp only [List.length_append]
      omega
    rw [← List.cons_append, ← List.append_assoc, List.isPrefix_append_of_length hlength] at hp ⊢
    exact hp

theorem prefix_crlf (hnewline : '\n' ∉ part) (hreturn : '\r' ∉ part) :
    part <+: crlf cs ↔ part <+: cs := by
  induction part generalizing cs with
  | nil => simp
  | cons d part ih =>
    rw [List.mem_cons, not_or] at hnewline hreturn
    cases cs with
    | nil => simp
    | cons c cs =>
      by_cases hc : c = '\n'
      · subst hc
        simp [hnewline.1, hreturn.1, Ne.symm]
      · rw [crlf_cons_of_ne hc, List.cons_prefix_cons, List.cons_prefix_cons,
          ih hnewline.2 hreturn.2]

/-- No occurrence of one text can overlap an occurrence of another. -/
def Apart (part sep : List Char) : Prop :=
  (∀ r ∈ part.tail.tails, r ≠ [] → ¬ r <+: sep ∧ ¬ sep <+: r) ∧
    ∀ s ∈ sep.tails, s ≠ [] → ¬ part <+: s ∧ ¬ s <+: part

instance (part sep : List Char) : Decidable (Apart part sep) := inferInstanceAs (Decidable (_ ∧ _))

/-- A text is found before or behind another one that it cannot overlap. -/
theorem position?_append_apart {sep : List Char} (hne : part ≠ []) (h : Apart part sep) :
    position? part (xs ++ (sep ++ ys)) =
      (position? part xs).or ((position? part ys).map (· + (xs.length + sep.length))) := by
  have hclash : ∀ {r s : List Char}, ¬ r <+: s ∧ ¬ s <+: r → ¬ r <+: s ++ ys := fun hrs hp =>
    (List.prefix_or_prefix_of_prefix hp (List.prefix_append _ _)).elim hrs.1 hrs.2
  induction xs with
  | nil =>
    have hskip : ∀ {s}, s <:+ sep →
        position? part (s ++ ys) = (position? part ys).map (· + s.length) := by
      intro s hs
      induction s with
      | nil => simp
      | cons c s ih =>
        have hhead : ¬ part <+: c :: (s ++ ys) := by
          rw [← List.cons_append]
          exact hclash (h.2 _ ((List.mem_tails _ _).mpr hs) (List.cons_ne_nil _ _))
        rw [List.cons_append, position?, if_neg (by rwa [List.isPrefixOf_iff_prefix]),
          ih ((List.suffix_cons c s).trans hs)]
        simp [Function.comp_def, Nat.add_assoc]
    rw [List.nil_append, hskip (List.suffix_refl _)]
    simp [position?, hne]
  | cons c xs ih =>
    have hhead : part.isPrefixOf (c :: (xs ++ (sep ++ ys))) = part.isPrefixOf (c :: xs) := by
      rw [Bool.eq_iff_iff, List.isPrefixOf_iff_prefix, List.isPrefixOf_iff_prefix,
        ← List.cons_append]
      refine ⟨fun hp => (prefix_append_cases hp).resolve_right ?_,
        fun hp => hp.trans (List.prefix_append _ _)⟩
      rintro ⟨d, r, rfl, hr⟩
      exact hclash (h.1 _ ((List.mem_tails _ _).mpr (List.suffix_append _ _))
        (List.cons_ne_nil _ _)) hr
    rw [List.cons_append, position?, hhead, position?, ih]
    split
    · simp
    · cases position? part xs <;> cases position? part ys <;> simp [Nat.add_assoc, Nat.add_comm]

/-- A text that white space at the end of a line cannot bring about: it starts with no white space,
and what follows white space in it is another character than its first. -/
structure Firm (part : List Char) : Prop where
  start : ∃ c cs, part = c :: cs ∧ isBlank c = false
  inner : ∀ {xs b r}, part = xs ++ b :: r → isBlank b = true →
    ∃ d r', r = d :: r' ∧ isBlank d = false ∧ part.head? ≠ some d

theorem Firm.ne_nil (h : Firm part) : part ≠ [] := by
  obtain ⟨c, cs, rfl, -⟩ := h.start
  exact List.cons_ne_nil _ _

theorem Firm.position?_blank_append (h : Firm part) {before : List Char}
    (hblank : before.all isBlank = true) :
    position? part (before ++ xs) = (position? part xs).map (· + before.length) := by
  obtain ⟨c, cs, rfl, hc⟩ := h.start
  induction before with
  | nil => simp
  | cons b before ih =>
    rw [List.all_cons, Bool.and_eq_true] at hblank
    have hhead : ¬ (c :: cs).isPrefixOf (b :: (before ++ xs)) = true := by
      rw [List.isPrefixOf_iff_prefix, List.cons_prefix_cons]
      rintro ⟨rfl, -⟩
      exact Bool.false_ne_true (hc.symm.trans hblank.1)
    rw [List.cons_append, position?, if_neg hhead, ih hblank.2]
    simp [Function.comp_def, Nat.add_assoc]

/-- White space behind a line does not make a text occur in it. -/
theorem Firm.position?_append_blank (h : Firm part) (hblank : after.all isBlank = true)
    (hnone : position? part xs = none) : position? part (xs ++ after) = none := by
  induction xs with
  | nil =>
    have hskip : position? part (after ++ []) = _ := h.position?_blank_append hblank
    rw [List.append_nil] at hskip
    simpa [position?, h.ne_nil] using hskip
  | cons c xs ih =>
    obtain ⟨hhead, htail⟩ := position?_cons_eq_none.mp hnone
    rw [List.cons_append]
    refine position?_cons_eq_none.mpr ⟨fun hp => ?_, ih htail⟩
    rw [← List.cons_append] at hp
    obtain ⟨b, r, heq, hr⟩ := (prefix_append_cases hp).resolve_left hhead
    have hall : ∀ d ∈ b :: r, isBlank d = true := fun d hd =>
      List.all_eq_true.mp hblank d (hr.mem hd)
    obtain ⟨d, r', rfl, hd, -⟩ := h.inner heq (hall b List.mem_cons_self)
    exact Bool.false_ne_true (hd.symm.trans (hall d (by simp)))

/-- White space before the first occurrence of a text moves it, and no more. -/
theorem Firm.position?_append_blank_part (h : Firm part) (hblank : after.all isBlank = true)
    (hfirst : position? part (xs ++ (part ++ ys)) = some xs.length) :
    position? part (xs ++ (after ++ (part ++ ys))) = some (xs.length + after.length) := by
  induction xs with
  | nil =>
    rw [List.nil_append, h.position?_blank_append hblank, position?_self h.ne_nil]
    rfl
  | cons c xs ih =>
    rw [List.cons_append] at hfirst ⊢
    obtain ⟨hhead, htail⟩ := position?_cons_eq_some.mp hfirst
    rw [List.length_cons, Nat.add_right_comm]
    refine position?_cons_eq_some.mpr ⟨fun hp => hhead ?_, ih htail⟩
    rw [← List.cons_append] at hp ⊢
    rcases prefix_append_cases hp with hp | ⟨b, r, heq, hr⟩
    · exact hp.trans (List.prefix_append _ _)
    · cases after with
      | nil => exact hp
      | cons a after =>
        -- the white space would have to be the one inside the text
        rw [List.cons_append, List.cons_prefix_cons] at hr
        obtain ⟨rfl, hr⟩ := hr
        rw [List.all_cons, Bool.and_eq_true] at hblank
        obtain ⟨d, r', rfl, hd, hnot⟩ := h.inner heq hblank.1
        cases after with
        | nil =>
          obtain ⟨e, cs, hpart, -⟩ := h.start
          rw [hpart, List.nil_append, List.cons_append, List.cons_prefix_cons] at hr
          rw [hpart, List.head?_cons, hr.1] at hnot
          exact absurd rfl hnot
        | cons a' after =>
          rw [List.all_cons, Bool.and_eq_true] at hblank
          rw [List.cons_append, List.cons_prefix_cons] at hr
          exact absurd (hd.symm.trans (hr.1 ▸ hblank.2.1)) Bool.false_ne_true

/-- A text without line ends is found in the same place. -/
theorem position?_crlf (hne : part ≠ []) (hnewline : '\n' ∉ part) (hreturn : '\r' ∉ part)
    (cs : List Char) :
    position? part (crlf cs) = (position? part cs).map fun i => (crlf (cs.take i)).length := by
  have hskip : ∀ {c}, c ∉ part → ∀ cs,
      position? part (c :: cs) = (position? part cs).map (· + 1) := by
    intro c hc cs
    rw [position?, if_neg]
    rw [List.isPrefixOf_iff_prefix, ← List.nil_append (c :: cs), prefix_append_cons hc,
      List.prefix_nil]
    exact hne
  induction cs with
  | nil => simp [position?]
  | cons c cs ih =>
    by_cases hc : c = '\n'
    · subst hc
      rw [crlf_newline, hskip hreturn, hskip hnewline, ih, hskip hnewline]
      simp [Function.comp_def]
    · have hhead : part.isPrefixOf (c :: crlf cs) = part.isPrefixOf (c :: cs) := by
        rw [Bool.eq_iff_iff, List.isPrefixOf_iff_prefix, List.isPrefixOf_iff_prefix,
          ← crlf_cons_of_ne hc, prefix_crlf hnewline hreturn]
      rw [crlf_cons_of_ne hc, position?, position?, hhead, ih]
      split
      · rfl
      · simp [Function.comp_def, crlf_cons_of_ne hc]

end VisualScript.Text

namespace VisualScript.Embedding

open Text

variable {body' cs : List Char}

variable {c : Char} {body code head tail : List Char}

/-! ### What the lines carry -/

/-- What the comment lines of a text carry. -/
def carried (cs : List Char) : List Char := (splitLines cs).flatMap payload

theorem payload_cons (h : isBlank c = true) (l : List Char) : payload (c :: l) = payload l := by
  rw [payload, trimBy_cons h, payload]

theorem payload_concat (h : isBlank c = true) (l : List Char) : payload (l ++ [c]) = payload l := by
  rw [payload, trimBy_concat h, payload]

theorem flatMap_payload_eq (ls : List (List Char)) :
    ls.flatMap payload = payload (ls.headD []) ++ ls.tail.flatMap payload := by
  cases ls <;> rfl

/-- Cut at every line end, a text has the same first line, and its other lines carry the same. -/
theorem exists_lines (cs : List Char) :
    ∃ ls, cs.splitOnP isLineEnd = (splitLines cs).headD [] :: ls ∧
      ls.flatMap payload = (splitLines cs).tail.flatMap payload := by
  induction cs using splitLines.induct with
  | case1 => exact ⟨[], rfl, rfl⟩
  | case2 cs ih =>
    -- the line that ends between the two characters is empty
    obtain ⟨ls, hlines, hcarried⟩ := ih
    refine ⟨[] :: cs.splitOnP isLineEnd, ?_, ?_⟩
    · rw [List.splitOnP_cons_eq_if_modifyHead, List.splitOnP_cons_eq_if_modifyHead, splitLines]
      rfl
    · rw [splitLines, List.tail_cons, flatMap_payload_eq (splitLines cs), hlines,
        List.flatMap_cons, List.flatMap_cons, hcarried]
      rfl
  | case3 c cs hcr hend ih =>
    obtain ⟨ls, hlines, hcarried⟩ := ih
    refine ⟨cs.splitOnP isLineEnd, ?_, ?_⟩
    · rw [List.splitOnP_cons_eq_if_modifyHead, if_pos hend, splitLines.eq_3 _ _ hcr, if_pos hend]
      rfl
    · rw [splitLines.eq_3 _ _ hcr, if_pos hend, List.tail_cons,
        flatMap_payload_eq (splitLines cs), hlines, List.flatMap_cons, hcarried]
  | case4 c cs hcr hend ih =>
    obtain ⟨ls, hlines, hcarried⟩ := ih
    refine ⟨ls, ?_, ?_⟩
    · rw [List.splitOnP_cons_eq_if_modifyHead, if_neg hend, splitLines.eq_3 _ _ hcr,
        if_neg hend, hlines]
      cases splitLines cs <;> rfl
    · rw [splitLines.eq_3 _ _ hcr, if_neg hend, hcarried]
      cases splitLines cs <;> rfl

/-- Empty lines carry nothing, so it does not matter which line ends are taken together. -/
theorem carried_eq (cs : List Char) :
    carried cs = (cs.splitOnP isLineEnd).flatMap payload := by
  obtain ⟨ls, hlines, hcarried⟩ := exists_lines cs
  rw [carried, hlines, List.flatMap_cons, hcarried, ← flatMap_payload_eq]

theorem carried_append {e : Char} (h : isLineEnd e = true) (xs ys : List Char) :
    carried (xs ++ e :: ys) = carried xs ++ carried ys := by
  rw [carried_eq, List.splitOnP_append_cons _ _ h, List.flatMap_append, carried_eq, carried_eq]

theorem carried_cons_blank (h : isBlank c = true) (cs : List Char) :
    carried (c :: cs) = carried cs := by
  rw [carried_eq, List.splitOnP_cons_eq_if_modifyHead, carried_eq]
  split
  · rfl
  · obtain ⟨l, ls, hlines⟩ := List.exists_cons_of_ne_nil (List.splitOnP_ne_nil isLineEnd cs)
    rw [hlines, List.modifyHead_cons, List.flatMap_cons, List.flatMap_cons, payload_cons h]

theorem splitOnP_concat {p : Char → Bool} (h : p c = false) (cs : List Char) :
    ∃ ls l, cs.splitOnP p = ls ++ [l] ∧ (cs ++ [c]).splitOnP p = ls ++ [l ++ [c]] := by
  induction cs with
  | nil =>
    refine ⟨[], [], List.splitOnP_nil, ?_⟩
    simp [List.splitOnP_cons_eq_if_modifyHead, h]
  | cons d cs ih =>
    obtain ⟨ls, l, hlines, hmore⟩ := ih
    rw [List.cons_append, List.splitOnP_cons_eq_if_modifyHead,
      List.splitOnP_cons_eq_if_modifyHead, hlines, hmore]
    split
    · exact ⟨[] :: ls, l, rfl, rfl⟩
    · cases ls with
      | nil => exact ⟨[], d :: l, rfl, rfl⟩
      | cons first ls => exact ⟨(d :: first) :: ls, l, rfl, rfl⟩

theorem carried_concat_blank (h : isBlank c = true) (cs : List Char) :
    carried (cs ++ [c]) = carried cs := by
  by_cases hend : isLineEnd c = true
  · rw [carried_append hend]
    exact List.append_nil _
  · obtain ⟨ls, l, hlines, hmore⟩ := splitOnP_concat (Bool.eq_false_iff.mpr hend) cs
    rw [carried_eq, carried_eq, hlines, hmore]
    simp [payload_concat h]

theorem carried_blank_append {before : List Char} (h : before.all isBlank = true) (cs : List Char) :
    carried (before ++ cs) = carried cs := by
  induction before with
  | nil => rfl
  | cons c before ih =>
    rw [List.all_cons, Bool.and_eq_true] at h
    rw [List.cons_append, carried_cons_blank h.1, ih h.2]

theorem carried_append_blank {after : List Char} (h : after.all isBlank = true) (cs : List Char) :
    carried (cs ++ after) = carried cs := by
  induction after generalizing cs with
  | nil => rw [List.append_nil]
  | cons c after ih =>
    rw [List.all_cons, Bool.and_eq_true] at h
    rw [List.append_cons, ih h.2, carried_concat_blank h.1]

/-- **White space around the lines does not change what they carry.** -/
theorem carried_of_padded {cs cs' : List Char} (h : Padded cs cs') : carried cs' = carried cs := by
  have hline : ∀ {before after : List Char}, (before ++ after).all isBlank = true → ∀ l,
      carried (before ++ l ++ after) = carried l := by
    intro before after blank l
    rw [List.all_append, Bool.and_eq_true] at blank
    rw [carried_append_blank blank.2, carried_blank_append blank.1]
  induction h with
  | last l blank => exact hline blank l
  | line l blank lineEnd _ ih =>
    rw [carried_append lineEnd, carried_append lineEnd, hline blank, ih]

/-! ### Where the markers are -/

/-- The text between the markers, with what stands before and behind: both markers are the first
ones in the script. -/
structure Cut (code head body tail : List Char) : Prop where
  text    : code = head ++ (beginMarker.toList ++ (body ++ (endMarker.toList ++ tail)))
  opening : position? beginMarker.toList code = some head.length
  closing : position? endMarker.toList code =
    some (head.length + beginMarker.toList.length + body.length)

theorem markers_apart : Apart endMarker.toList beginMarker.toList := by decide

theorem endMarker_isLine : IsLine endMarker.toList := by decide

theorem endMarker_firm : Firm endMarker.toList where
  start := ⟨'/', _, rfl, rfl⟩
  inner := by
    intro xs b r heq hb
    have htext : endMarker.toList = '/' :: '/' :: ' ' :: "@modstudio-project-data-end".toList := rfl
    have hword : "@modstudio-project-data-end".toList.all (!isBlank ·) = true := by decide
    rw [htext] at heq
    -- the only white space is the third character
    rcases xs with _ | ⟨x, _ | ⟨y, _ | ⟨z, xs⟩⟩⟩
    · obtain ⟨rfl, -⟩ := List.cons.inj heq
      cases hb
    · obtain ⟨rfl, -⟩ := List.cons.inj (List.cons.inj heq).2
      cases hb
    · obtain ⟨-, rfl⟩ := List.cons.inj (List.cons.inj (List.cons.inj heq).2).2
      exact ⟨'@', _, rfl, rfl, by simp [htext]⟩
    · obtain ⟨-, htail⟩ := List.cons.inj (List.cons.inj (List.cons.inj heq).2).2
      rw [htail] at hword
      simp [hb] at hword

theorem cut_iff
    (htext : code = head ++ (beginMarker.toList ++ (body ++ (endMarker.toList ++ tail)))) :
    Cut code head body tail ↔ position? beginMarker.toList code = some head.length ∧
      position? endMarker.toList head = none ∧
      position? endMarker.toList (body ++ (endMarker.toList ++ tail)) = some body.length := by
  have hclosing : position? endMarker.toList code =
      some (head.length + beginMarker.toList.length + body.length) ↔
        position? endMarker.toList head = none ∧
        position? endMarker.toList (body ++ (endMarker.toList ++ tail)) = some body.length := by
    rw [htext, position?_append_apart endMarker_firm.ne_nil markers_apart]
    cases hhead : position? endMarker.toList head with
    | none =>
      simp only [Option.none_or, true_and, Option.map_eq_some_iff]
      constructor
      · rintro ⟨i, hi, hsum⟩
        rw [hi, show i = body.length by omega]
      · intro hi
        exact ⟨_, hi, Nat.add_comm _ _⟩
    | some i =>
      have hbound := position?_bound hhead
      have hpos : 0 < endMarker.toList.length := List.length_pos_of_ne_nil endMarker_firm.ne_nil
      simp only [Option.some_or, Option.some.injEq]
      constructor
      · intro hi
        omega
      · rintro ⟨hnone, -⟩
        cases hnone
  rw [← hclosing]
  exact ⟨fun h => ⟨h.opening, h.closing⟩, fun h => ⟨htext, h.1, h.2⟩⟩

theorem drop_take_cut (head body rest : List Char) :
    ((head ++ (beginMarker.toList ++ (body ++ rest))).drop
      (head.length + beginMarker.length)).take body.length = body := by
  rw [← String.length_toList, ← List.append_assoc, ← List.length_append, List.drop_left,
    List.take_left]

/-- The text between the markers, if there is one. -/
theorem between?_eq_some_iff :
    between? code = some body ↔ ∃ head tail, Cut code head body tail := by
  constructor
  · intro h
    rw [between?] at h
    split at h
    case h_2 => cases h
    case h_1 b e hb he =>
      split at h
      case isTrue => cases h
      case isFalse horder =>
        obtain ⟨head, rest, htext, rfl⟩ := exists_of_position? hb
        rw [List.append_assoc] at htext
        have hhead : position? endMarker.toList head = none := by
          by_contra hsome
          obtain ⟨i, hi⟩ := Option.ne_none_iff_exists'.mp hsome
          rw [htext, position?_append_apart endMarker_firm.ne_nil markers_apart, hi] at he
          have hbound := position?_bound hi
          have hpos := List.length_pos_of_ne_nil endMarker_firm.ne_nil
          exact horder (by rw [← Option.some.inj he]; omega)
        rw [htext, position?_append_apart endMarker_firm.ne_nil markers_apart, hhead,
          Option.none_or, Option.map_eq_some_iff] at he
        obtain ⟨i, hi, rfl⟩ := he
        obtain ⟨body', tail, hrest, rfl⟩ := exists_of_position? hi
        rw [List.append_assoc] at hrest
        rw [hrest] at htext hi
        dsimp only at h
        rw [htext, String.length_toList, Nat.add_sub_cancel, drop_take_cut] at h
        obtain rfl := Option.some.inj h
        exact ⟨head, tail, (cut_iff htext).mpr ⟨hb, hhead, hi⟩⟩
  · rintro ⟨head, tail, h⟩
    rw [between?, h.opening, h.closing, String.length_toList]
    simp only
    rw [if_neg (by omega), Nat.add_sub_cancel_left, h.text, drop_take_cut]

/-- The end marker is found behind the padded lines. -/
theorem position?_padded (h : Padded body body')
    (hfirst : position? endMarker.toList (body ++ (endMarker.toList ++ tail)) = some body.length) :
    position? endMarker.toList (body' ++ (endMarker.toList ++ tail)) = some body'.length := by
  induction h with
  | @last l before after blank =>
    rw [List.all_append, Bool.and_eq_true] at blank
    rw [List.append_assoc, List.append_assoc, endMarker_firm.position?_blank_append blank.1,
      endMarker_firm.position?_append_blank_part blank.2 hfirst]
    simp
    omega
  | @line l before after rest rest' e blank lineEnd _ ih =>
    have hline : e ∉ endMarker.toList := fun he => by
      have hend : isLineEnd e = false := endMarker_isLine e he
      exact Bool.false_ne_true (hend.symm.trans lineEnd)
    rw [List.append_assoc, List.cons_append, position?_append endMarker_firm.ne_nil hline]
      at hfirst ⊢
    rw [List.all_append, Bool.and_eq_true] at blank
    cases hl : position? endMarker.toList l with
    | some i =>
      have hbound := position?_bound hl
      rw [hl, Option.some_or, Option.some.injEq, List.length_append, List.length_cons] at hfirst
      omega
    | none =>
      have hpad : position? endMarker.toList (before ++ l ++ after) = none :=
        endMarker_firm.position?_append_blank blank.2
          (by rw [endMarker_firm.position?_blank_append blank.1, hl]; rfl)
      rw [hl, Option.none_or, Option.map_eq_some_iff] at hfirst
      obtain ⟨i, hi, hsum⟩ := hfirst
      rw [List.length_append, List.length_cons] at hsum
      obtain rfl : i = rest.length := by omega
      rw [hpad, Option.none_or, ih hi, Option.map_some]
      simp only [List.length_append, List.length_cons, Option.some.injEq]
      omega

theorem Cut.padded (h : Cut code head body tail) (hpad : Padded body body') :
    Cut (head ++ (beginMarker.toList ++ (body' ++ (endMarker.toList ++ tail))))
      head body' tail := by
  obtain ⟨hopening, hhead, hclosing⟩ := (cut_iff h.text).mp h
  rw [h.text] at hopening
  exact (cut_iff rfl).mpr
    ⟨position?_append_part (by decide) hopening, hhead, position?_padded hpad hclosing⟩

theorem Cut.crlf (h : Cut code head body tail) :
    Cut (crlf code) (crlf head) (crlf body) (crlf tail) where
  text := by
    rw [h.text, crlf_append, crlf_append, crlf_append, crlf_append,
      crlf_eq_self beginMarker_no_newline, crlf_eq_self endMarker_no_newline]
  opening := by
    rw [position?_crlf (by decide) beginMarker_no_newline (by decide), h.opening, Option.map_some,
      h.text, List.take_left]
  closing := by
    rw [position?_crlf (by decide) endMarker_no_newline (by decide), h.closing, Option.map_some,
      h.text, ← List.append_assoc, ← List.append_assoc, ← List.length_append, ← List.length_append,
      List.take_left, crlf_append, crlf_append, crlf_eq_self beginMarker_no_newline,
      List.length_append, List.length_append]

theorem length_le_crlf (cs : List Char) : cs.length ≤ (crlf cs).length := by
  induction cs with
  | nil => exact Nat.le_refl 0
  | cons c cs ih =>
    rw [crlf_cons]
    split <;> simp <;> omega

theorem length_crlf_take_lt {i j : Nat} (hij : i < j) (hj : j ≤ cs.length) :
    (crlf (cs.take i)).length < (crlf (cs.take j)).length := by
  have hsplit : cs.take i ++ (cs.take j).drop i = cs.take j := by
    have h := List.take_append_drop i (cs.take j)
    rwa [List.take_take, Nat.min_eq_left hij.le] at h
  have hmore := length_le_crlf ((cs.take j).drop i)
  rw [List.length_drop, List.length_take_of_le hj] at hmore
  rw [← hsplit, crlf_append, List.length_append]
  omega

/-- **Other line ends keep the markers in place.** -/
theorem between?_crlf (code : List Char) : between? (crlf code) = (between? code).map crlf := by
  cases h : between? code with
  | some body =>
    obtain ⟨head, tail, hcut⟩ := between?_eq_some_iff.mp h
    exact between?_eq_some_iff.mpr ⟨_, _, hcut.crlf⟩
  | none =>
    rw [between?] at h ⊢
    rw [position?_crlf (by decide) beginMarker_no_newline (by decide),
      position?_crlf (by decide) endMarker_no_newline (by decide)]
    cases hb : position? beginMarker.toList code with
    | none => rfl
    | some b =>
      cases he : position? endMarker.toList code with
      | none => rfl
      | some e =>
        have hbound := position?_bound hb
        simp only [hb, he, ite_eq_left_iff, Option.some_ne_none, imp_false, not_not] at h
        simp only [Option.map_some, Option.map_none]
        rw [if_pos (length_crlf_take_lt h (by omega))]

/-- **Extraction ignores line ends and indentation.**  The same project is found in a script with a
carriage return before every line feed, and in a script with white space added before and after the
lines between its markers. -/
theorem extract?_reflowed (r : Reading) (code : String) :
    extract? r (String.ofList (crlf code.toList)) = extract? r code ∧
    ∀ head body body' tail, Cut code.toList head body tail → Padded body body' →
      extract? r (String.ofList
        (head ++ (beginMarker.toList ++ (body' ++ (endMarker.toList ++ tail))))) =
          extract? r code := by
  have hextract : ∀ code, extract? r code = (between? code.toList).bind fun body =>
      decode? r (carried body) := fun _ => rfl
  refine ⟨?_, fun head body body' tail hcut hpad => ?_⟩
  · rw [hextract, hextract, String.toList_ofList, between?_crlf, Option.bind_map]
    congr 1
    funext body
    rw [Function.comp_apply, carried_of_padded (padded_crlf body)]
  · rw [hextract, hextract, String.toList_ofList, between?_eq_some_iff.mpr ⟨_, _, hcut⟩,
      between?_eq_some_iff.mpr ⟨_, _, hcut.padded hpad⟩, Option.bind_some, Option.bind_some,
      carried_of_padded hpad]

/-- A script with an empty project in one line between its markers. -/
def note : String := "f()" ++ beginMarker ++ "\n// eyJkYXRhIjp7fX0=\n" ++ endMarker

/-- The line of the note, indented and with a tab behind it: the project is found in both. -/
theorem extract?_reflowed_note :
    Cut note.toList "f()".toList "\n// eyJkYXRhIjp7fX0=\n".toList [] ∧
    Padded "\n// eyJkYXRhIjp7fX0=\n".toList "\n  // eyJkYXRhIjp7fX0=\t\n".toList ∧
    ∃ p, extract? { timestamp := "" } note = some p ∧
      extract? { timestamp := "" } (String.ofList ("f()".toList ++ (beginMarker.toList ++
        ("\n  // eyJkYXRhIjp7fX0=\t\n".toList ++ (endMarker.toList ++ []))))) = some p := by
  have hcut : Cut note.toList "f()".toList "\n// eyJkYXRhIjp7fX0=\n".toList [] :=
    ⟨by decide +kernel, by decide +kernel, by decide +kernel⟩
  have hpad : Padded "\n// eyJkYXRhIjp7fX0=\n".toList "\n  // eyJkYXRhIjp7fX0=\t\n".toList :=
    @Padded.line [] [] [] _ _ '\n' rfl rfl
      (@Padded.line "// eyJkYXRhIjp7fX0=".toList [' ', ' '] ['\t'] [] [] '\n' rfl rfl
        (@Padded.last [] [] [] rfl))
  have hfound : (extract? { timestamp := "" } note).isSome = true := by decide +kernel
  obtain ⟨p, hp⟩ := Option.isSome_iff_exists.mp hfound
  exact ⟨hcut, hpad, p, hp, ((extract?_reflowed _ _).2 _ _ _ _ hcut hpad).trans hp⟩

end VisualScript.Embedding
