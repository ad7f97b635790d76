import Mathlib.Data.List.Induction
import Mathlib.Data.List.Nodup

/-!
# Proofs — Drafts

The lines of a function while they are being written.  A draft has a page for the body of the
function and a page for each thread.  When the items of a node begin, an anchor is set at the end of
the page; a declaration that has to stand in front of the node is spliced in at the anchor, and the
anchors at that place or behind it move along.

Lines carry the moment of their edit, and a spliced line the anchor it was put in front of, so that
the lines on the two sides of an anchor can be told apart (`Anchor.Separates`).

* `Draft.anchors_separate`: whatever the edits are, an anchor parts the lines that stood on its page
  when it was set from those that were appended since.
-/

namespace VisualScript

/-- A line of a draft. -/
structure DraftLine where
  text   : String
  /-- The number of the edit that wrote the line. -/
  moment : Nat
  /-- The anchor a hoisted declaration was put in front of; none for a line that was appended. -/
  anchor : Option Nat

/-- Whether the line was hoisted at the moment `m` or later. -/
def DraftLine.isHoistedSince (m : Nat) (l : DraftLine) : Bool :=
  l.anchor.isSome && decide (m ≤ l.moment)

/-- A place on a page, in front of the lines of a node. -/
structure Anchor where
  /-- The number of the edit that set the anchor. -/
  id    : Nat
  page  : Nat
  index : Nat

/-- An anchor after `count` lines were spliced in at `b`. -/
def Anchor.moved (b : Anchor) (count : Nat) (a : Anchor) : Anchor :=
  if a.page = b.page ∧ b.index ≤ a.index then { a with index := a.index + count } else a

/-- What happens to a draft. -/
inductive Edit where
  | append (text : String)
  /-- The items of a node begin. -/
  | enter (node : String)
  /-- The items of a node end. -/
  | leave
  /-- The node whose items are being written opens a block. -/
  | openBlock
  | closeBlock
  /-- The node whose items are being written opens a thread, which gets a page of its own. -/
  | openThread
  | closeThread (header : String)
  /-- Declarations for the block at `level` go in front of the node that opened the next one. -/
  | hoist (level : Nat) (texts : List String)

structure Draft where
  /-- The number of the next edit. -/
  moment  : Nat := 1
  pages   : Nat → List DraftLine := fun _ => []
  /-- The pages of the open functions, innermost first. -/
  writing : List Nat := [0]
  /-- The anchors of the nodes whose items are being written, innermost first. -/
  anchors : List Anchor := []
  /-- For each open block but the body, the anchor of its opener, innermost first. -/
  openers : List Nat := []
  /-- The thread functions that are complete. -/
  threads : List (List String) := []

namespace Draft

/-- The page that is being written. -/
def page (d : Draft) : Nat := d.writing.headD 0

def setPage (d : Draft) (k : Nat) (lines : List DraftLine) : Draft :=
  { d with pages := fun j => if j = k then lines else d.pages j }

/-- The anchor of the node that opened the block inside the one at `level`. -/
def opener? (d : Draft) (level : Nat) : Option Anchor :=
  d.openers.reverse[level]?.bind fun k => d.anchors.find? (·.id == k)

/-- The lines an edit splices in at the anchor with the number `k`. -/
def stamp (d : Draft) (k : Nat) (texts : List String) : List DraftLine :=
  texts.map (⟨·, d.moment, some k⟩)

def splice (d : Draft) (b : Anchor) (texts : List String) : Draft :=
  let lines := d.pages b.page
  { d.setPage b.page (lines.take b.index ++ d.stamp b.id texts ++ lines.drop b.index) with
    anchors := d.anchors.map (b.moved texts.length) }

def openBlock (d : Draft) : Draft :=
  { d with openers := (d.anchors.head?.map (·.id)).getD 0 :: d.openers }

def apply (d : Draft) : Edit → Draft
  | .append text => d.setPage d.page (d.pages d.page ++ [⟨text, d.moment, none⟩])
  | .enter _ =>
      { d with anchors := ⟨d.moment, d.page, (d.pages d.page).length⟩ :: d.anchors }
  | .leave => { d with anchors := d.anchors.tail }
  | .openBlock => d.openBlock
  | .closeBlock => { d with openers := d.openers.tail }
  | .openThread => { d.openBlock.setPage d.moment [] with writing := d.moment :: d.writing }
  | .closeThread header =>
      { d with
        openers := d.openers.tail
        writing := d.writing.tail
        threads := d.threads ++
          [[header, "\x7b"] ++ (d.pages d.page).map (·.text) ++ ["\x7d"]] }
  | .hoist level texts =>
      match d.opener? level with
      | some b => d.splice b texts
      | none   => d

def step (d : Draft) (e : Edit) : Draft := { d.apply e with moment := d.moment + 1 }

def run (d : Draft) (es : List Edit) : Draft := es.foldl step d

@[simp] theorem run_nil (d : Draft) : d.run [] = d := rfl

@[simp] theorem run_cons (d : Draft) (e : Edit) (es : List Edit) :
    d.run (e :: es) = (d.step e).run es := rfl

@[simp] theorem run_append (d : Draft) (es fs : List Edit) :
    d.run (es ++ fs) = (d.run es).run fs := List.foldl_append

/-- The draft of a function after some edits. -/
def ofEdits (es : List Edit) : Draft := ({} : Draft).run es

theorem ofEdits_append (es fs : List Edit) : ofEdits (es ++ fs) = (ofEdits es).run fs :=
  run_append _ es fs

theorem run_moment (d : Draft) (es : List Edit) : (d.run es).moment = d.moment + es.length := by
  induction es generalizing d with
  | nil => rfl
  | cons e es ih =>
    rw [run_cons, ih, List.length_cons]
    simp only [step]
    omega

/-- The lines an edit appends to the page `k`. -/
def adds (d : Draft) (k : Nat) : Edit → List DraftLine
  | .append text => if k = d.page then [⟨text, d.moment, none⟩] else []
  | _            => []

/-- The lines an edit splices in at the anchor with the number `k`. -/
def splices (d : Draft) (k : Nat) : Edit → List DraftLine
  | .hoist level texts => if (d.opener? level).any (·.id == k) then d.stamp k texts else []
  | _                  => []

/-- The lines some edits append to the page `k`, in the order of the edits. -/
def appended (d : Draft) (k : Nat) : List Edit → List DraftLine
  | []      => []
  | e :: es => d.adds k e ++ (d.step e).appended k es

/-- The lines some edits splice in at the anchor with the number `k`, in the order of the edits. -/
def spliced (d : Draft) (k : Nat) : List Edit → List DraftLine
  | []      => []
  | e :: es => d.splices k e ++ (d.step e).spliced k es

theorem appended_append (d : Draft) (k : Nat) (es fs : List Edit) :
    d.appended k (es ++ fs) = d.appended k es ++ (d.run es).appended k fs := by
  induction es generalizing d with
  | nil => rfl
  | cons e es ih => simp [appended, ih]

theorem spliced_append (d : Draft) (k : Nat) (es fs : List Edit) :
    d.spliced k (es ++ fs) = d.spliced k es ++ (d.run es).spliced k fs := by
  induction es generalizing d with
  | nil => rfl
  | cons e es ih => simp [spliced, ih]

end Draft

/-! ### The two sides of an anchor -/

/-- The anchor parts the lines of its page: in front are those that were there when it was set
(`old`), behind it those appended since (`new`), and nothing else but hoisted declarations.  Those
spliced in at the anchor itself (`own`) stand in front of it in the order of the edits, and right
behind it comes the first line appended since. -/
structure Anchor.Separates (a : Anchor) (lines old new own : List DraftLine) : Prop where
  within : a.index ≤ lines.length
  before : (lines.take a.index).filter (fun l => !l.isHoistedSince a.id) = old
  behind : (lines.drop a.index).filter (fun l => !l.isHoistedSince a.id) = new
  first  : (lines.drop a.index).head? = new.head?
  order  : (lines.take a.index).filter (fun l => l.anchor == some a.id) = own
  front  : ∀ l ∈ lines.drop a.index, l.anchor ≠ some a.id

namespace Anchor

variable {lines old new own : List DraftLine} {a b : Anchor}

@[simp] theorem moved_id (b : Anchor) (count : Nat) (a : Anchor) : (b.moved count a).id = a.id := by
  unfold moved
  split <;> rfl

@[simp] theorem moved_page (b : Anchor) (count : Nat) (a : Anchor) :
    (b.moved count a).page = a.page := by
  unfold moved
  split <;> rfl

/-- The two sides of an anchor on a page that is cut at it. -/
theorem separates_append {front back : List DraftLine} (hi : a.index = front.length) :
    a.Separates (front ++ back) old new own ↔
      front.filter (fun l => !l.isHoistedSince a.id) = old ∧
      back.filter (fun l => !l.isHoistedSince a.id) = new ∧
      back.head? = new.head? ∧
      front.filter (fun l => l.anchor == some a.id) = own ∧
      ∀ l ∈ back, l.anchor ≠ some a.id := by
  have htake : (front ++ back).take a.index = front := by rw [hi, List.take_left]
  have hdrop : (front ++ back).drop a.index = back := by rw [hi, List.drop_left]
  constructor
  · rintro ⟨-, h₁, h₂, h₃, h₄, h₅⟩
    rw [htake] at h₁ h₄
    rw [hdrop] at h₂ h₃ h₅
    exact ⟨h₁, h₂, h₃, h₄, h₅⟩
  · rintro ⟨h₁, h₂, h₃, h₄, h₅⟩
    exact ⟨by simp [hi], by rwa [htake], by rwa [hdrop], by rwa [hdrop], by rwa [htake],
      by rwa [hdrop]⟩

/-- An anchor set at the end of a page. -/
theorem separates_end (hi : a.index = lines.length) (hm : ∀ l ∈ lines, l.moment < a.id)
    (ha : ∀ l ∈ lines, l.anchor ≠ some a.id) : a.Separates lines lines [] [] := by
  rw [← List.append_nil lines, separates_append hi, List.append_nil]
  refine ⟨List.filter_eq_self.mpr fun l hl => ?_, rfl, rfl, ?_, by simp⟩
  · have := hm l hl
    simp [DraftLine.isHoistedSince, this]
  · exact List.filter_eq_nil_iff.mpr fun l hl => by simpa using ha l hl

theorem Separates.cut (h : a.Separates lines old new own) :
    ∃ front back, lines = front ++ back ∧ a.index = front.length :=
  ⟨lines.take a.index, lines.drop a.index, (List.take_append_drop _ _).symm,
    (List.length_take_of_le h.within).symm⟩

theorem Separates.append (h : a.Separates lines old new own) {l : DraftLine}
    (hl : l.anchor = none) : a.Separates (lines ++ [l]) old (new ++ [l]) own := by
  obtain ⟨front, back, rfl, hi⟩ := h.cut
  obtain ⟨h₁, h₂, h₃, h₄, h₅⟩ := (separates_append hi).mp h
  have hsince : l.isHoistedSince a.id = false := by simp [DraftLine.isHoistedSince, hl]
  rw [List.append_assoc, separates_append hi]
  refine ⟨h₁, by simp [h₂, hsince], ?_, h₄, ?_⟩
  · rw [List.head?_append, List.head?_append, h₃]
  · simpa [hl, or_imp, forall_and] using h₅

/-- Lines are spliced in before an anchor, or at the anchor itself. -/
theorem Separates.splice_before {texts : List DraftLine} {i : Nat}
    (h : a.Separates lines old new own) (hi : i ≤ a.index)
    (ht : ∀ l ∈ texts, l.isHoistedSince a.id = true)
    (hown : i = a.index ∨ ∀ l ∈ texts, l.anchor ≠ some a.id) :
    Separates { a with index := a.index + texts.length } (lines.take i ++ texts ++ lines.drop i)
      old new (own ++ texts.filter fun l => l.anchor == some a.id) := by
  obtain ⟨front, back, rfl, hindex⟩ := h.cut
  obtain ⟨h₁, h₂, h₃, h₄, h₅⟩ := (separates_append hindex).mp h
  rw [hindex] at hi hown
  have hlines : (front ++ back).take i ++ texts ++ (front ++ back).drop i =
      (front.take i ++ texts ++ front.drop i) ++ back := by
    rw [List.take_append_of_le_length hi, List.drop_append_of_le_length hi]
    simp
  have hlength : a.index + texts.length = (front.take i ++ texts ++ front.drop i).length := by
    simp only [List.length_append, List.length_take, List.length_drop]
    omega
  have hhoisted : texts.filter (fun l => !l.isHoistedSince a.id) = [] :=
    List.filter_eq_nil_iff.mpr fun l hl => by simp [ht l hl]
  rw [hlines, separates_append hlength]
  refine ⟨?_, h₂, h₃, ?_, h₅⟩
  · rw [List.filter_append, List.filter_append, hhoisted, List.append_nil, ← List.filter_append,
      List.take_append_drop, h₁]
  · rw [List.filter_append, List.filter_append, ← h₄]
    rcases hown with rfl | hother
    · simp
    · have hnone : texts.filter (fun l => l.anchor == some a.id) = [] :=
        List.filter_eq_nil_iff.mpr fun l hl => by simpa using hother l hl
      rw [hnone, List.append_nil, List.append_nil, ← List.filter_append, List.take_append_drop]

/-- Lines are spliced in behind an anchor, and not right behind it. -/
theorem Separates.splice_behind {texts : List DraftLine} {i : Nat}
    (h : a.Separates lines old new own) (hi : a.index < i) (hlen : i ≤ lines.length)
    (ht : ∀ l ∈ texts, l.isHoistedSince a.id = true)
    (hother : ∀ l ∈ texts, l.anchor ≠ some a.id) :
    a.Separates (lines.take i ++ texts ++ lines.drop i) old new own := by
  obtain ⟨front, back, rfl, hindex⟩ := h.cut
  obtain ⟨h₁, h₂, h₃, h₄, h₅⟩ := (separates_append hindex).mp h
  obtain ⟨j, rfl⟩ : ∃ j, i = front.length + j := ⟨i - front.length, by omega⟩
  have hlines : (front ++ back).take (front.length + j) ++ texts ++
      (front ++ back).drop (front.length + j) = front ++ (back.take j ++ texts ++ back.drop j) := by
    rw [List.take_length_add_append, List.drop_length_add_append]
    simp
  have hhoisted : texts.filter (fun l => !l.isHoistedSince a.id) = [] :=
    List.filter_eq_nil_iff.mpr fun l hl => by simp [ht l hl]
  rw [hlines, separates_append hindex]
  refine ⟨h₁, ?_, ?_, h₄, ?_⟩
  · rw [List.filter_append, List.filter_append, hhoisted, List.append_nil, ← List.filter_append,
      List.take_append_drop, h₂]
  · -- the first line behind the anchor is not moved
    obtain ⟨k, rfl⟩ : ∃ k, j = k + 1 := ⟨j - 1, by omega⟩
    cases back with
    | nil =>
      rw [List.append_nil] at hlen
      omega
    | cons l' _ => simpa using h₃
  · intro l hl
    simp only [List.mem_append] at hl
    rcases hl with (hl | hl) | hl
    · exact h₅ l (List.mem_of_mem_take hl)
    · exact hother l hl
    · exact h₅ l (List.mem_of_mem_drop hl)

end Anchor

namespace Draft

/-! ### What an edit does to an anchor -/

/-- Numbers are given out once: those of anchors and pages are below the next one. -/
structure Sound (d : Draft) : Prop where
  anchors : ∀ a ∈ d.anchors, a.id < d.moment ∧ a.page < d.moment
  writing : ∀ k ∈ d.writing, k < d.moment
  positive : 0 < d.moment
  nodup   : (d.anchors.map (·.id)).Nodup
  lines   : ∀ k, ∀ l ∈ d.pages k, l.moment < d.moment ∧ ∀ j ∈ l.anchor, j < d.moment
  within  : ∀ a ∈ d.anchors, a.index ≤ (d.pages a.page).length

variable {d : Draft} {e : Edit} {a a' b : Anchor} {level : Nat} {texts : List String}

theorem opener?_mem (h : d.opener? level = some b) : b ∈ d.anchors := by
  obtain ⟨k, -, h⟩ := Option.bind_eq_some_iff.mp h
  exact List.mem_of_find?_eq_some h

/-- How an anchor that stays fares under an edit. -/
inductive Keeps (d : Draft) (e : Edit) (a : Anchor) : Anchor → Prop where
  | still (pages : (d.step e).pages a.page = d.pages a.page ++ d.adds a.page e)
      (own : d.splices a.id e = []) : Keeps d e a a
  | moved {level : Nat} {texts : List String} {b : Anchor} (edit : e = .hoist level texts)
      (opener : d.opener? level = some b) : Keeps d e a (b.moved texts.length a)

theorem mem_anchors_step (hd : d.Sound) (h : a' ∈ (d.step e).anchors) :
    (∃ node, e = .enter node ∧ a' = ⟨d.moment, d.page, (d.pages d.page).length⟩) ∨
      ∃ a ∈ d.anchors, d.Keeps e a a' := by
  cases e with
  | append text =>
    refine .inr ⟨a', h, .still ?_ rfl⟩
    simp only [step, apply, setPage, adds]
    split
    · rename_i heq
      rw [heq]
    · simp
  | enter node =>
    rcases List.mem_cons.mp h with rfl | h
    · exact .inl ⟨node, rfl, rfl⟩
    · exact .inr ⟨a', h, .still (List.append_nil _).symm rfl⟩
  | leave => exact .inr ⟨a', List.mem_of_mem_tail h, .still (List.append_nil _).symm rfl⟩
  | openThread =>
    refine .inr ⟨a', h, .still ?_ rfl⟩
    -- the new page has a number that no anchor has
    have hne : a'.page ≠ d.moment := Nat.ne_of_lt (hd.anchors a' h).2
    simp [step, apply, setPage, openBlock, adds, hne]
  | hoist level texts =>
    cases hb : d.opener? level with
    | none =>
      simp only [step, apply, hb] at h
      exact .inr ⟨a', h, .still (by simp [step, apply, hb, adds]) (by simp [splices, hb])⟩
    | some b =>
      simp only [step, apply, hb, splice] at h
      obtain ⟨a, ha, rfl⟩ := List.mem_map.mp h
      exact .inr ⟨a, ha, .moved rfl hb⟩
  | _ => exact .inr ⟨a', h, .still (List.append_nil _).symm rfl⟩

theorem pages_hoist (hb : d.opener? level = some b) (texts : List String) (k : Nat) :
    (d.step (.hoist level texts)).pages k =
      if k = b.page then
        (d.pages b.page).take b.index ++ d.stamp b.id texts ++ (d.pages b.page).drop b.index
      else d.pages k := by
  simp [step, apply, hb, splice, setPage]

theorem Sound.page_lt (hd : d.Sound) : d.page < d.moment := by
  unfold page
  cases hw : d.writing with
  | nil => exact hd.positive
  | cons k _ => exact hd.writing k (by rw [hw]; exact List.mem_cons_self)

/-- A line of the draft after an edit was there before, or is of this moment; a hoisted one is among
those of the edit. -/
theorem mem_pages_step {k : Nat} {l : DraftLine} (h : l ∈ (d.step e).pages k) :
    l ∈ d.pages k ∨ l.moment = d.moment ∧ ∀ j ∈ l.anchor, (∃ b ∈ d.anchors, b.id = j) ∧
      ∃ level texts, e = .hoist level texts ∧ l.text ∈ texts := by
  cases e with
  | append text =>
    simp only [step, apply, setPage] at h
    split at h
    · rename_i hk
      rcases List.mem_append.mp h with h | h
      · exact .inl (hk ▸ h)
      · rw [List.mem_singleton.mp h]
        exact .inr ⟨rfl, by simp⟩
    · exact .inl h
  | openThread =>
    simp only [step, apply, setPage, openBlock] at h
    split at h
    · cases h
    · exact .inl h
  | hoist level texts =>
    cases hb : d.opener? level with
    | none =>
      simp only [step, apply, hb] at h
      exact .inl h
    | some b =>
      rw [pages_hoist hb] at h
      split at h
      · rename_i hk
        simp only [List.mem_append, stamp, List.mem_map] at h
        rcases h with (h | ⟨text, htext, rfl⟩) | h
        · exact .inl (hk ▸ List.mem_of_mem_take h)
        · exact .inr ⟨rfl, fun j hj =>
            ⟨⟨b, opener?_mem hb, Option.some.inj hj⟩, level, texts, rfl, htext⟩⟩
        · exact .inl (hk ▸ List.mem_of_mem_drop h)
      · exact .inl h
  | _ => exact .inl h

theorem Keeps.id_eq (h : d.Keeps e a a') : a'.id = a.id := by
  cases h <;> simp

theorem Keeps.page_eq (h : d.Keeps e a a') : a'.page = a.page := by
  cases h <;> simp

theorem Keeps.within (hd : d.Sound) (ha : a ∈ d.anchors) (h : d.Keeps e a a') :
    a'.index ≤ ((d.step e).pages a'.page).length := by
  have hwithin := hd.within a ha
  cases h with
  | still pages _ =>
    rw [pages, List.length_append]
    omega
  | @moved level texts b edit opener =>
    subst edit
    have hb := hd.within b (opener?_mem opener)
    rw [Anchor.moved_page, pages_hoist opener]
    split
    · rename_i hpage
      rw [hpage] at hwithin
      simp only [List.length_append, List.length_take, List.length_drop, stamp, List.length_map]
      unfold Anchor.moved
      split
      · dsimp only
        omega
      · omega
    · rename_i hpage
      rw [Anchor.moved, if_neg fun h => hpage h.1]
      exact hwithin

/-- The numbers of the anchors after an edit. -/
theorem anchors_step_ids (e : Edit) : ((d.step e).anchors.map (·.id)) = d.anchors.map (·.id) ∨
    (∃ node, e = .enter node ∧
      ((d.step e).anchors.map (·.id)) = d.moment :: d.anchors.map (·.id)) ∨
    e = .leave ∧ ((d.step e).anchors.map (·.id)) = (d.anchors.map (·.id)).tail := by
  cases e with
  | enter node => exact .inr (.inl ⟨node, rfl, rfl⟩)
  | leave => exact .inr (.inr ⟨rfl, List.map_tail⟩)
  | hoist level texts =>
    refine .inl ?_
    simp only [step, apply]
    cases d.opener? level with
    | none => rfl
    | some b => simp [splice, Function.comp_def]
  | _ => exact .inl rfl

theorem writing_step (e : Edit) : ∀ k ∈ (d.step e).writing, k ∈ d.writing ∨ k = d.moment := by
  cases e with
  | hoist level texts =>
    simp only [step, apply]
    cases d.opener? level <;> exact fun k hk => .inl hk
  | openThread => exact fun k hk => (List.mem_cons.mp hk).symm
  | closeThread _ => exact fun k hk => .inl (List.mem_of_mem_tail hk)
  | _ => exact fun k hk => .inl hk

theorem Sound.step (hd : d.Sound) (e : Edit) : (d.step e).Sound := by
  have hmoment : (d.step e).moment = d.moment + 1 := rfl
  refine ⟨fun a' ha' => ?_, fun k hk => ?_, Nat.succ_pos _, ?_, fun k l hl => ?_, fun a' ha' => ?_⟩
  · rw [hmoment]
    rcases mem_anchors_step hd ha' with ⟨_, -, rfl⟩ | ⟨a, ha, hkeeps⟩
    · exact ⟨Nat.lt_succ_self _, Nat.lt_succ_of_lt hd.page_lt⟩
    · rw [hkeeps.id_eq, hkeeps.page_eq]
      exact ⟨Nat.lt_succ_of_lt (hd.anchors a ha).1, Nat.lt_succ_of_lt (hd.anchors a ha).2⟩
  · rw [hmoment]
    rcases writing_step e k hk with hk | rfl
    · exact Nat.lt_succ_of_lt (hd.writing k hk)
    · exact Nat.lt_succ_self _
  · rcases anchors_step_ids e with h | ⟨_, -, h⟩ | ⟨-, h⟩ <;> rw [h]
    · exact hd.nodup
    · refine List.nodup_cons.mpr ⟨fun hmem => ?_, hd.nodup⟩
      obtain ⟨a, ha, heq⟩ := List.mem_map.mp hmem
      exact absurd heq (Nat.ne_of_lt (hd.anchors a ha).1)
    · exact hd.nodup.tail
  · rw [hmoment]
    rcases mem_pages_step hl with hl | ⟨hm, hj⟩
    · exact ⟨Nat.lt_succ_of_lt (hd.lines k l hl).1,
        fun j hj => Nat.lt_succ_of_lt ((hd.lines k l hl).2 j hj)⟩
    · refine ⟨by omega, fun j hmem => ?_⟩
      obtain ⟨⟨b, hb, rfl⟩, -⟩ := hj j hmem
      exact Nat.lt_succ_of_lt (hd.anchors b hb).1
  · rcases mem_anchors_step hd ha' with ⟨_, rfl, rfl⟩ | ⟨a, ha, hkeeps⟩
    · exact Nat.le_refl _
    · exact hkeeps.within hd ha

theorem Sound.run (hd : d.Sound) (es : List Edit) : (d.run es).Sound := by
  induction es generalizing d with
  | nil => exact hd
  | cons e es ih => exact ih (hd.step e)

theorem sound_empty : ({} : Draft).Sound :=
  ⟨by simp, by simp, Nat.one_pos, List.nodup_nil, by simp, by simp⟩

theorem sound_ofEdits (es : List Edit) : (ofEdits es).Sound := sound_empty.run es

/-! ### Anchors under edits -/

variable {old new own : List DraftLine}

theorem stamp_anchor {k : Nat} : ∀ l ∈ d.stamp k texts, l.anchor = some k := by
  intro l hl
  obtain ⟨text, -, rfl⟩ := List.mem_map.mp hl
  rfl

theorem stamp_isHoistedSince {k m : Nat} (hm : m ≤ d.moment) :
    ∀ l ∈ d.stamp k texts, l.isHoistedSince m = true := by
  intro l hl
  obtain ⟨text, -, rfl⟩ := List.mem_map.mp hl
  simp [DraftLine.isHoistedSince, hm]

theorem Keeps.separates (hd : d.Sound) (ha : a ∈ d.anchors) (h : d.Keeps e a a')
    (hsep : a.Separates (d.pages a.page) old new own) :
    a'.Separates ((d.step e).pages a'.page) old (new ++ d.adds a.page e)
      (own ++ d.splices a.id e) := by
  cases h with
  | still pages splices =>
    rw [pages, splices, List.append_nil]
    cases e with
    | append text =>
      simp only [adds]
      split
      · exact hsep.append rfl
      · simpa using hsep
    | _ => simpa [adds] using hsep
  | @moved level texts b edit opener =>
    subst edit
    have hb := opener?_mem opener
    have hadds : d.adds a.page (.hoist level texts) = [] := rfl
    have hsince := @stamp_isHoistedSince d texts b.id a.id (Nat.le_of_lt (hd.anchors a ha).1)
    have hcount : (d.stamp b.id texts).length = texts.length := List.length_map ..
    rw [Anchor.moved_page, pages_hoist opener, hadds, List.append_nil, splices, opener,
      Anchor.moved, ← hcount]
    by_cases hid : b.id = a.id
    · -- the declarations go in front of this very anchor
      obtain rfl : b = a := List.inj_on_of_nodup_map hd.nodup hb ha hid
      have hfilter : (d.stamp b.id texts).filter (fun l => l.anchor == some b.id) =
          d.stamp b.id texts := List.filter_eq_self.mpr fun l hl => by simp [stamp_anchor l hl]
      have := hsep.splice_before (Nat.le_refl _) hsince (.inl rfl)
      rw [hfilter] at this
      simpa using this
    · have hother : ∀ l ∈ d.stamp b.id texts, l.anchor ≠ some a.id := fun l hl => by
        simpa [stamp_anchor l hl] using hid
      have hfilter : (d.stamp b.id texts).filter (fun l => l.anchor == some a.id) = [] :=
        List.filter_eq_nil_iff.mpr fun l hl => by simpa using hother l hl
      have hown : (some b).any (fun c => c.id == a.id) = false := by simpa using hid
      rw [hown, if_neg Bool.false_ne_true, List.append_nil]
      by_cases hpage : a.page = b.page
      · have hwithin := hd.within b hb
        rw [if_pos hpage, ← hpage]
        rw [← hpage] at hwithin
        by_cases hle : b.index ≤ a.index
        · rw [if_pos ⟨rfl, hle⟩]
          simpa [hfilter] using hsep.splice_before hle hsince (.inr hother)
        · rw [if_neg fun h => hle h.2]
          exact hsep.splice_behind (by omega) hwithin hsince hother
      · rw [if_neg hpage, if_neg fun h => hpage h.1]
        exact hsep

/-- **Whatever the edits are, an anchor parts the lines that stood on its page when it was set from
those that were appended since.** -/
theorem anchors_separate (hd : d.Sound) (node : String) (es : List Edit)
    (ha : a ∈ ((d.step (.enter node)).run es).anchors) (hid : a.id = d.moment) :
    a.page = d.page ∧ a.Separates (((d.step (.enter node)).run es).pages a.page) (d.pages a.page)
      ((d.step (.enter node)).appended a.page es) ((d.step (.enter node)).spliced a.id es) := by
  induction es using List.reverseRecOn generalizing a with
  | nil =>
    rcases List.mem_cons.mp ha with rfl | ha
    · refine ⟨rfl, Anchor.separates_end rfl (fun l hl => (hd.lines _ l hl).1) fun l hl heq => ?_⟩
      exact Nat.lt_irrefl _ ((hd.lines _ l hl).2 _ heq)
    · exact absurd hid (Nat.ne_of_lt (hd.anchors a ha).1)
  | append_singleton es e ih =>
    have hrun := (hd.step (.enter node)).run es
    rw [run_append, run_cons, run_nil] at ha ⊢
    rcases mem_anchors_step hrun ha with ⟨_, -, rfl⟩ | ⟨a₀, ha₀, hkeeps⟩
    · -- an anchor set by the last edit is another one
      have hmoment : ((d.step (.enter node)).run es).moment = d.moment := hid
      rw [run_moment] at hmoment
      simp only [step] at hmoment
      omega
    · obtain ⟨hpage, hsep⟩ := ih ha₀ (hkeeps.id_eq ▸ hid)
      rw [appended_append, spliced_append]
      have := hkeeps.separates hrun ha₀ hsep
      simpa [appended, spliced, hkeeps.page_eq, hkeeps.id_eq, hpage] using this

/-- Every anchor was set by an edit. -/
theorem exists_enter {es : List Edit} (ha : a ∈ (ofEdits es).anchors) :
    ∃ past node since, es = past ++ .enter node :: since ∧ a.id = (ofEdits past).moment := by
  induction es using List.reverseRecOn generalizing a with
  | nil => cases ha
  | append_singleton es e ih =>
    rw [ofEdits_append, run_cons, run_nil] at ha
    rcases mem_anchors_step (sound_ofEdits es) ha with ⟨node, rfl, rfl⟩ | ⟨a₀, ha₀, hkeeps⟩
    · exact ⟨es, node, [], rfl, rfl⟩
    · obtain ⟨past, node, since, rfl, hid⟩ := ih ha₀
      exact ⟨past, node, since ++ [e], by simp, hkeeps.id_eq ▸ hid⟩

end Draft

end VisualScript
