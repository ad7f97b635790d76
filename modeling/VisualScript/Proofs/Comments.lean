import VisualScript.Proofs.Trace
import VisualScript.Proofs.Embedding
import VisualScript.Proofs.Forest

/-!
# Proofs — Comments

What the comments of a script hold back.  A project's name, author, description and other texts go
into the header, the id of the mod and the labels of events into comments of the script, all of them
as they are.  A text of several lines is a comment in its first line only; the other lines stand in
the script like code.

Where a line ends is left to the reader of the script (`Text.Breaks`): at a line feed, and at
nothing but line ends.

* `Header.commented_iff`: the header is a comment exactly if the lines that the texts add are.
* `Script.module_mem_linesBy`, `Script.render_mem_linesBy`: where the id and the labels are.
* `Script.comments_hold_iff`: when the comments hold these texts, and what the texts add to a script
  when they do not.
-/

namespace VisualScript

namespace Text

/-- The characters at which a reader of scripts ends a line. -/
structure Breaks (ends : Char → Bool) : Prop where
  newline : ends '\n' = true
  lineEnd : ∀ c, ends c = true → isLineEnd c = true

/-- The lines of a text. -/
def linesBy (ends : Char → Bool) (s : String) : List (List Char) := s.toList.splitOnP ends

/-- A line without code. -/
def IsComment (line : List Char) : Prop := line = [] ∨ ['/', '/'] <+: line

instance (line : List Char) : Decidable (IsComment line) := inferInstanceAs (Decidable (_ ∨ _))

def Commented (ends : Char → Bool) (s : String) : Prop := ∀ line ∈ linesBy ends s, IsComment line

/-- Behind the start of a comment, the text adds no line of code. -/
def Tame (ends : Char → Bool) (s : String) : Prop := ∀ line ∈ (linesBy ends s).tail, IsComment line

def OneLine (ends : Char → Bool) (s : String) : Prop := ∀ c ∈ s.toList, ends c = false

variable {ends : Char → Bool} {label value s t : String}

theorem linesBy_of_oneLine (h : OneLine ends s) : linesBy ends s = [s.toList] :=
  List.splitOnP_eq_singleton h

@[simp] theorem linesBy_empty : linesBy ends "" = [[]] := List.splitOnP_nil

theorem tame_empty : Tame ends "" := by simp [Tame]

theorem linesBy_newline (h : Breaks ends) (s t : String) :
    linesBy ends (s ++ "\n" ++ t) = linesBy ends s ++ linesBy ends t := by
  have htext : (s ++ "\n" ++ t).toList = s.toList ++ '\n' :: t.toList := by simp
  rw [linesBy, htext, List.splitOnP_append_cons _ _ h.newline]
  rfl

theorem linesBy_joinLines (h : Breaks ends) : ∀ {ls : List String}, ls ≠ [] →
    linesBy ends (joinLines ls) = ls.flatMap (linesBy ends)
  | [l], _ => by simp [joinLines]
  | l :: l' :: ls, _ => by
    have hrest := linesBy_joinLines h (List.cons_ne_nil l' ls)
    rw [List.flatMap_cons, ← hrest, joinLines, String.intercalate_cons_of_ne_nil (by simp),
      linesBy_newline h]
    rfl

theorem linesBy_blank (h : Breaks ends) (s t : String) :
    linesBy ends (s ++ "\n\n" ++ t) = linesBy ends s ++ [] :: linesBy ends t := by
  have hblank : s ++ "\n\n" ++ t = s ++ "\n" ++ ("" ++ "\n" ++ t) := by
    rw [show "\n\n" = "\n" ++ "" ++ "\n" from rfl]
    simp only [String.append_assoc]
  rw [hblank, linesBy_newline h, linesBy_newline h, linesBy_empty]
  rfl

/-- A text between blank lines keeps its lines. -/
theorem mem_linesBy_intercalate (h : Breaks ends) {line : List Char}
    (hline : line ∈ linesBy ends s) :
    ∀ {ts : List String}, s ∈ ts → line ∈ linesBy ends ("\n\n".intercalate ts)
  | [t], hs => by
    rw [List.mem_singleton.mp hs] at hline
    simpa using hline
  | t :: t' :: ts, hs => by
    rw [String.intercalate_cons_of_ne_nil (by simp), linesBy_blank h]
    rcases List.mem_cons.mp hs with rfl | hs
    · exact List.mem_append_left _ hline
    · exact List.mem_append_right _ (.tail _ (mem_linesBy_intercalate h hline hs))

theorem linesBy_ne_nil (s : String) : linesBy ends s ≠ [] := List.splitOnP_ne_nil _ _

theorem forall_mem_linesBy {line : List Char} (h : line ∈ linesBy ends s) :
    ∀ c ∈ line, ends c = false := by
  have key : ∀ (cs : List Char), ∀ line ∈ cs.splitOnP ends, ∀ c ∈ line, ends c = false := by
    intro cs
    induction cs with
    | nil => simp
    | cons c cs ih =>
      rw [List.splitOnP_cons_eq_if_modifyHead]
      split
      case isTrue => simpa using ih
      case isFalse hc =>
        cases hrest : cs.splitOnP ends with
        | nil => exact absurd hrest (List.splitOnP_ne_nil _ _)
        | cons first rest =>
          rw [hrest] at ih
          simp only [List.modifyHead_cons, List.forall_mem_cons] at ih ⊢
          exact ⟨⟨by simpa using hc, ih.1⟩, ih.2⟩
  exact key s.toList line h

/-- A label in front of a text goes to its first line. -/
theorem linesBy_label (h : Breaks ends) (hlabel : IsLine label.toList) (value : String) :
    ∃ first rest, linesBy ends value = first :: rest ∧
      linesBy ends (label ++ value) = (label.toList ++ first) :: rest := by
  have key : ∀ (cs : List Char) {ds first : List Char} {rest : List (List Char)}, IsLine cs →
      ds.splitOnP ends = first :: rest → (cs ++ ds).splitOnP ends = (cs ++ first) :: rest := by
    intro cs ds first rest hcs hds
    induction cs with
    | nil => exact hds
    | cons c cs ih =>
      have hc : ¬ ends c = true := fun he => by simpa [h.lineEnd c he] using hcs c (.head _)
      rw [List.cons_append, List.splitOnP_cons_eq_if_modifyHead, if_neg hc,
        ih fun d hd => hcs d (.tail _ hd)]
      rfl
  obtain ⟨first, rest, hvalue⟩ := List.exists_cons_of_ne_nil (@linesBy_ne_nil ends value)
  refine ⟨first, rest, hvalue, ?_⟩
  rw [linesBy, String.toList_append, key _ hlabel hvalue]

theorem tail_linesBy_label (h : Breaks ends) (hlabel : IsLine label.toList) (value : String) :
    (linesBy ends (label ++ value)).tail = (linesBy ends value).tail := by
  obtain ⟨first, rest, hvalue, hline⟩ := linesBy_label h hlabel value
  rw [hvalue, hline]
  rfl

/-- A comment goes on exactly as far as its text is tame. -/
theorem commented_label (h : Breaks ends) (hlabel : IsLine label.toList)
    (hstart : ['/', '/'] <+: label.toList) : Commented ends (label ++ value) ↔ Tame ends value := by
  obtain ⟨first, rest, hvalue, hline⟩ := linesBy_label h hlabel value
  rw [Commented, Tame, hvalue, hline, List.forall_mem_cons, List.tail_cons]
  exact and_iff_right (.inr (hstart.trans (List.prefix_append _ _)))

/-- A label and its text are a line together exactly if the text is one line. -/
theorem whole_mem_iff (h : Breaks ends) (hlabel : IsLine label.toList)
    (hmem : ∀ line ∈ linesBy ends (label ++ value), line ∈ linesBy ends s) :
    (label ++ value).toList ∈ linesBy ends s ↔ OneLine ends value := by
  constructor
  · intro hwhole c hc
    exact forall_mem_linesBy hwhole c (by simp [hc])
  · intro hvalue
    have hone : OneLine ends (label ++ value) := by
      intro c hc
      rw [String.toList_append] at hc
      rcases List.mem_append.mp hc with hc | hc
      · exact Bool.eq_false_iff.mpr fun he => by simpa [h.lineEnd c he] using hlabel c hc
      · exact hvalue c hc
    exact hmem _ (by simp [linesBy_of_oneLine hone])

end Text

open Text

/-! ### The header -/

/-- The texts that the header shows. -/
def Metadata.shown (m : Metadata) : List String :=
  [m.name, m.version, m.author, m.description, m.modifiedAt, m.editorVersion]

namespace Header

variable {ends : Char → Bool} {m : Metadata} {includeGraph : Bool}

/-- The start of a comment in which a text is shown. -/
def IsLabel (label : String) : Prop := IsLine label.toList ∧ ['/', '/'] <+: label.toList

instance (label : String) : Decidable (IsLabel label) := inferInstanceAs (Decidable (_ ∧ _))

theorem mem_lines {line : String} (h : line ∈ lines m includeGraph) :
    ∃ label value, line = label ++ value ∧ IsLabel label ∧ (value = "" ∨ value ∈ m.shown) := by
  have hplain : ∀ s, IsLabel s →
      ∃ label value, s = label ++ value ∧ IsLabel label ∧ (value = "" ∨ value ∈ m.shown) :=
    fun s hs => ⟨s, "", by simp, hs, .inl rfl⟩
  have hgiven : ∀ {label value : String}, line ∈ unlessEmpty label value →
      IsLabel ("// " ++ label ++ ": ") → value ∈ m.shown →
        ∃ label value, line = label ++ value ∧ IsLabel label ∧ (value = "" ∨ value ∈ m.shown) := by
    intro label value hm hlabel hvalue
    rw [unlessEmpty] at hm
    split at hm
    · cases hm
    · exact ⟨_, value, List.mem_singleton.mp hm, hlabel, .inr hvalue⟩
  rw [lines] at h
  rcases List.mem_append.mp h with h | h
  · rcases List.mem_append.mp h with h | h
    · rcases List.mem_append.mp h with h | h
      · rcases List.mem_append.mp h with h | h
        · simp only [List.mem_cons, List.not_mem_nil, or_false] at h
          rcases h with rfl | rfl | rfl | rfl | rfl
          · exact hplain rule (by decide)
          · exact hplain _ (by decide)
          · exact hplain rule (by decide)
          · exact ⟨_, _, rfl, by decide, .inr (by simp [Metadata.shown])⟩
          · exact ⟨_, _, rfl, by decide, .inr (by simp [Metadata.shown])⟩
        · exact hgiven h (by decide) (by simp [Metadata.shown])
      · exact hgiven h (by decide) (by simp [Metadata.shown])
    · simp only [List.mem_cons, List.not_mem_nil, or_false] at h
      rcases h with rfl | rfl | rfl
      · exact ⟨_, _, rfl, by decide, .inr (by simp [Metadata.shown])⟩
      · exact ⟨_, _, rfl, by decide, .inr (by simp [Metadata.shown])⟩
      · exact hplain rule (by decide)
  · split at h
    · simp only [List.mem_cons, List.not_mem_nil, or_false] at h
      rcases h with rfl | rfl | rfl | rfl <;> exact hplain _ (by decide)
    · cases h

/-- Every text that is not empty is in the header behind a label. -/
theorem label_mem_lines {value : String} (h : value ∈ m.shown) (hne : value ≠ "") :
    ∃ label, IsLabel label ∧ label ++ value ∈ lines m includeGraph := by
  have hgiven : ∀ label, "// " ++ label ++ ": " ++ value ∈ unlessEmpty label value := by
    intro label
    rw [unlessEmpty, if_neg hne]
    exact .head _
  have hauthor : ∀ {line}, line ∈ unlessEmpty "Author" m.author → line ∈ lines m includeGraph :=
    fun h => List.mem_append_left _ (List.mem_append_left _ (List.mem_append_left _
      (List.mem_append_right _ h)))
  have hdescription : ∀ {line}, line ∈ unlessEmpty "Description" m.description →
      line ∈ lines m includeGraph :=
    fun h => List.mem_append_left _ (List.mem_append_left _ (List.mem_append_right _ h))
  simp only [Metadata.shown, List.mem_cons, List.not_mem_nil, or_false] at h
  rcases h with rfl | rfl | rfl | rfl | rfl | rfl
  · exact ⟨"// Project: ", by decide, .tail _ (.tail _ (.tail _ (.head _)))⟩
  · exact ⟨"// Version: ", by decide, .tail _ (.tail _ (.tail _ (.tail _ (.head _))))⟩
  · exact ⟨"// " ++ "Author" ++ ": ", by decide, hauthor (hgiven _)⟩
  · exact ⟨"// " ++ "Description" ++ ": ", by decide, hdescription (hgiven _)⟩
  · exact ⟨"// Generated: ", by decide, List.mem_append_left _ (List.mem_append_right _ (.head _))⟩
  · exact ⟨"// Editor Version: ", by decide,
      List.mem_append_left _ (List.mem_append_right _ (.tail _ (.head _)))⟩

theorem linesBy_text (h : Breaks ends) (code : String) :
    linesBy ends (text m includeGraph ++ code) =
      (lines m includeGraph).flatMap (linesBy ends) ++ [] :: linesBy ends code := by
  rw [text, linesBy_blank h, linesBy_joinLines h (by simp [lines])]

/-- **The header is a comment exactly if its texts are tame.** -/
theorem commented_iff (h : Breaks ends) (m : Metadata) (includeGraph : Bool) :
    Commented ends (text m includeGraph) ↔ ∀ value ∈ m.shown, Tame ends value := by
  have hlines : Commented ends (text m includeGraph) ↔
      ∀ line ∈ lines m includeGraph, Commented ends line := by
    have htext := @linesBy_text ends m includeGraph h ""
    rw [String.append_empty, linesBy_empty] at htext
    rw [Commented, htext]
    simp only [List.forall_mem_append, List.mem_flatMap, forall_exists_index, and_imp]
    refine ⟨fun hall line hl l hm => hall.1 l line hl hm, fun hall => ⟨fun l line hl hm => ?_, ?_⟩⟩
    · exact hall line hl l hm
    · simp [IsComment]
  rw [hlines]
  constructor
  · intro hall value hvalue
    by_cases hne : value = ""
    · exact hne ▸ tame_empty
    · obtain ⟨label, hlabel, hline⟩ := label_mem_lines hvalue hne
      exact (commented_label h hlabel.1 hlabel.2).mp (hall _ hline)
  · intro hall line hline
    obtain ⟨label, value, rfl, hlabel, hvalue⟩ := mem_lines hline
    refine (commented_label h hlabel.1 hlabel.2).mpr ?_
    rcases hvalue with rfl | hvalue
    · exact tame_empty
    · exact hall value hvalue

/-- A text of several lines adds all but the first to the script behind the header. -/
theorem tail_mem_linesBy (h : Breaks ends) {value : String} (hvalue : value ∈ m.shown)
    {line : List Char} (hline : line ∈ (linesBy ends value).tail) (code : String) :
    line ∈ linesBy ends (text m includeGraph ++ code) := by
  have hne : value ≠ "" := by
    rintro rfl
    simp at hline
  obtain ⟨label, hlabel, hmem⟩ := @label_mem_lines m includeGraph value hvalue hne
  rw [← tail_linesBy_label h hlabel.1] at hline
  rw [linesBy_text h]
  exact List.mem_append_left _ (List.mem_flatMap.mpr ⟨_, hmem, List.mem_of_mem_tail hline⟩)

end Header

/-! ### The script -/

/-- The text in the comment above the function of an event. -/
def PlacedNode.heading (n : PlacedNode) : String :=
  if n.node.label ≠ "" then n.node.label else n.definition.label

theorem EntryFunction.heading_mem_render {f : EntryFunction} (indent : String)
    (h : Definition.initContext? f.entry.definition.nodeType = none) :
    "// Event: " ++ f.entry.heading ∈ f.render indent := by
  rw [render, h]
  exact .head _

namespace Script

variable {ends : Char → Bool} {indent moduleId : String} {fs : List EntryFunction}

/-- What stands in a script below its banner. -/
def below (indent : String) (fs : List EntryFunction) : String :=
  if fs.isEmpty then noEntryText
  else "\n\n".intercalate (fs.map fun f => joinLines (f.render indent))

theorem linesBy_text (h : Breaks ends) : linesBy ends (text indent moduleId fs) =
    linesBy ends banner ++ (linesBy ends ("// Module: " ++ moduleId) ++
      [] :: (linesBy ends (below indent fs) ++ [[]])) := by
  have hclosed : text indent moduleId fs =
      joinLines [banner, "// Module: " ++ moduleId, "", below indent fs] ++ "\n" ++ "" :=
    String.append_empty.symm
  rw [hclosed, linesBy_newline h, linesBy_joinLines h (by simp)]
  simp

/-- The lines of the comment on the module are lines of the script. -/
theorem module_mem_linesBy (h : Breaks ends) {line : List Char}
    (hline : line ∈ linesBy ends ("// Module: " ++ moduleId)) :
    line ∈ linesBy ends (text indent moduleId fs) := by
  rw [linesBy_text h]
  exact List.mem_append_right _ (List.mem_append_left _ hline)

/-- The lines of a function are lines of the script. -/
theorem render_mem_linesBy (h : Breaks ends) {f : EntryFunction} (hf : f ∈ fs) {l : String}
    (hl : l ∈ f.render indent) {line : List Char} (hline : line ∈ linesBy ends l) :
    line ∈ linesBy ends (text indent moduleId fs) := by
  have hfunction : line ∈ linesBy ends (joinLines (f.render indent)) := by
    rw [linesBy_joinLines h (List.ne_nil_of_mem hl)]
    exact List.mem_flatMap.mpr ⟨l, hl, hline⟩
  have hbelow : line ∈ linesBy ends (below indent fs) := by
    rw [below, if_neg (by simpa using List.ne_nil_of_mem hf)]
    exact mem_linesBy_intercalate h hfunction (List.mem_map.mpr ⟨f, hf, rfl⟩)
  rw [linesBy_text h]
  exact List.mem_append_right _ (List.mem_append_right _ (.tail _ (List.mem_append_left _ hbelow)))

/-- Every entry has a function. -/
theorem exists_function {x : Index} (hfs : functions x moduleId = .ok fs) {n : PlacedNode}
    (hn : n ∈ x.entries) : ∃ f ∈ fs, f.entry = n := by
  rw [← flows_map_fst x x.entries {}] at hn
  obtain ⟨⟨_, flow⟩, hflow, rfl⟩ := List.mem_map.mp hn
  obtain ⟨f, hf, hmake⟩ := mem_of_mapM_ok hfs hflow
  obtain ⟨-, -, -, -, -, hentry, -⟩ := EntryFunction.make_ok hmake
  exact ⟨f, hf, hentry⟩

end Script

/-- The lines of the header and the code are lines of the script. -/
theorem Job.linesBy_scriptText {ends : Char → Bool} (h : Breaks ends) {j : Job}
    {code script : String} (hs : j.scriptText code = .ok script) {line : List Char}
    (hline : line ∈ linesBy ends
      (Header.text j.project.metadata j.options.includeProject ++ code)) :
    line ∈ linesBy ends script := by
  rw [scriptText] at hs
  split at hs
  · rw [Embedding.embed] at hs
    split at hs
    · cases hs
    · split at hs
      · cases hs
      · cases hs
        rw [linesBy_blank h]
        exact List.mem_append_left _ hline
  · cases hs
    exact hline

namespace Script

/-- **A comment holds a text exactly if the text is one line.**  Every line of the header is empty
or a comment exactly if that is so for all lines but the first of the texts it shows.  The comments
of a script with the id of its module and the label of an event hold them whole exactly if they are
one line.  The other lines of these texts are lines of the script. -/
theorem comments_hold_iff {ends : Char → Bool} (h : Breaks ends) :
    (∀ (m : Metadata) (includeGraph : Bool),
      Commented ends (Header.text m includeGraph) ↔ ∀ value ∈ m.shown, Tame ends value) ∧
    (∀ (catalog : Catalog) (indent moduleId : String) (nodes : List Node)
      (connections : List Connection) (code : String), nodes ≠ [] →
      generate catalog indent moduleId nodes connections = .ok code →
      (("// Module: " ++ moduleId).toList ∈ linesBy ends code ↔ OneLine ends moduleId) ∧
      (∀ line ∈ (linesBy ends moduleId).tail, line ∈ linesBy ends code) ∧
      ∃ x, Index.build catalog nodes connections = .ok x ∧
        ∀ n ∈ x.entries, Definition.initContext? n.definition.nodeType = none →
          (("// Event: " ++ n.heading).toList ∈ linesBy ends code ↔ OneLine ends n.heading) ∧
          ∀ line ∈ (linesBy ends n.heading).tail, line ∈ linesBy ends code) ∧
    ∀ (j : Job) (f : ScriptFile) (b : BuiltScript), j.Generates f b →
      ∀ value ∈ j.project.metadata.shown, ∀ line ∈ (linesBy ends value).tail,
        line ∈ linesBy ends b.code := by
  refine ⟨Header.commented_iff h, ?_, ?_⟩
  · intro catalog indent moduleId nodes connections code hne hgen
    have hbuild : ∃ x, Index.build catalog nodes connections = .ok x := by
      rw [generate, if_neg (by simpa using hne)] at hgen
      cases hbuild : Index.build catalog nodes connections with
      | error f =>
        rw [hbuild] at hgen
        cases hgen
      | ok x => exact ⟨x, rfl⟩
    obtain ⟨x, hbuild⟩ := hbuild
    obtain ⟨fs, hfs, htext⟩ := functions_of_generate hbuild hgen
    rw [htext hne]
    have hmodule : IsLine "// Module: ".toList := by decide
    have hevent : IsLine "// Event: ".toList := by decide
    refine ⟨whole_mem_iff h hmodule fun line => module_mem_linesBy h, fun line hline => ?_, x,
      hbuild, fun n hn hkind => ?_⟩
    · rw [← tail_linesBy_label h hmodule] at hline
      exact module_mem_linesBy h (List.mem_of_mem_tail hline)
    · obtain ⟨f, hf, rfl⟩ := exists_function hfs hn
      have hmem : ∀ line ∈ linesBy ends ("// Event: " ++ f.entry.heading),
          line ∈ linesBy ends (text indent moduleId fs) :=
        fun line => render_mem_linesBy h hf (EntryFunction.heading_mem_render indent hkind)
      refine ⟨whole_mem_iff h hevent hmem, fun line hline => ?_⟩
      rw [← tail_linesBy_label h hevent] at hline
      exact hmem line (List.mem_of_mem_tail hline)
  · rintro j f b ⟨r, code, script, -, -, hscript, rfl⟩ value hvalue line hline
    exact Job.linesBy_scriptText h hscript (Header.tail_mem_linesBy h hvalue hline code)

/-- A project whose description goes on in a comment of its own. -/
def gazette : Metadata := ⟨"Gazette", "1.0.0", "News\r// and weather", "", "", "", "0.1.0"⟩

/-- An event with a label. -/
def greeting : Node := { id := "start", nodeType := "event", label := "Round // start" }

/-- The header is a comment, and the comments of the script hold the id and the label. -/
theorem comments_hold_iff_gazette :
    Breaks isLineEnd ∧ Commented isLineEnd (Header.text gazette true) ∧
    ∃ code, generate .builtin "\t" "demo" [greeting] [] = .ok code ∧
      "// Module: demo".toList ∈ linesBy isLineEnd code ∧
      "// Event: Round // start".toList ∈ linesBy isLineEnd code := by
  have hbreaks : Breaks isLineEnd := ⟨by decide, fun _ h => h⟩
  obtain ⟨hheader, hscript, -⟩ := comments_hold_iff hbreaks
  have htame : ∀ value ∈ gazette.shown, Tame isLineEnd value := by
    have hall : ∀ value ∈ gazette.shown, ∀ line ∈ (linesBy isLineEnd value).tail,
        IsComment line := by decide +kernel
    exact hall
  have hgen : generate .builtin "\t" "demo" [greeting] [] = .ok (joinLines
      [banner, "// Module: demo", "", "// Event: Round // start", "global function event_handler",
       "", "void function event_handler()", "\x7b", "\x7d", ""]) := by
    rw [generate, Index.build, Index.addNode_builtin]
    decide +kernel
  obtain ⟨hmodule, -, x, hbuild, hevents⟩ := hscript _ _ _ _ _ _ (by simp) hgen
  have hentries : (Index.build .builtin [greeting] []).toOption.map (fun x => x.entries.map
      fun n => (n.heading, Definition.initContext? n.definition.nodeType)) =
        some [("Round // start", none)] := by
    rw [Index.build, Index.addNode_builtin]
    decide +kernel
  rw [hbuild] at hentries
  have hlist : x.entries.map (fun n => (n.heading, Definition.initContext? n.definition.nodeType)) =
      [("Round // start", none)] := Option.some.inj hentries
  obtain ⟨n, hn, he⟩ := List.mem_map.mp (hlist ▸ List.mem_singleton_self _)
  obtain ⟨hheading, hkind⟩ := Prod.mk.inj he
  obtain ⟨hevent, -⟩ := hevents n hn hkind
  rw [hheading] at hevent
  have hid : IsLine "demo".toList := by decide
  have hlabel : IsLine "Round // start".toList := by decide
  exact ⟨hbreaks, (hheader gazette true).mpr htame, _, hgen, hmodule.mpr hid, hevent.mpr hlabel⟩

/-- A description of two lines puts the second into the header as it is, and so do the id of a
module and the label of an event with the script; their comments do not hold them. -/
theorem texts_add_lines :
    ¬ Commented (· == '\n') (Header.text { gazette with description := "one\ntwo" } false) ∧
    ∃ code, generate .builtin "\t" "demo\nthree" [{ greeting with label := "go\nfour" }] [] =
        .ok code ∧
      "// Module: demo\nthree".toList ∉ linesBy (· == '\n') code ∧
      "// Event: go\nfour".toList ∉ linesBy (· == '\n') code ∧
      "three".toList ∈ linesBy (· == '\n') code ∧ "four".toList ∈ linesBy (· == '\n') code := by
  have hbreaks : Breaks (· == '\n') := ⟨by decide, fun c hc => by rw [eq_of_beq hc]; decide⟩
  have htwo : "two".toList ∈ (linesBy (· == '\n') "one\ntwo").tail := by decide +kernel
  have hheader := @Header.tail_mem_linesBy _ { gazette with description := "one\ntwo" } false
    hbreaks _ (by simp [Metadata.shown]) _ htwo ""
  rw [String.append_empty] at hheader
  have hscript : generate .builtin "\t" "demo\nthree" [{ greeting with label := "go\nfour" }] [] =
      .ok (joinLines
        [banner, "// Module: demo\nthree", "", "// Event: go\nfour",
         "global function event_handler", "", "void function event_handler()", "\x7b", "\x7d",
         ""]) := by
    rw [generate, Index.build, Index.addNode_builtin]
    decide +kernel
  refine ⟨fun hall => absurd (hall _ hheader) (by decide), _, hscript, ?_⟩
  decide +kernel

end Script

end VisualScript
