import VisualScript.Proofs.EditLog

/-!
# Proofs — Pages

What stands on the pages of a draft while blocks are open.  Around each open block there is an
opening: the lines in front of its opener, the declarations waiting there, the anchor, and the lines
the opener has written itself (`Displays`).  A hoisted declaration comes to stand behind those
already waiting (`Displays.hoist`).
-/

namespace VisualScript

open Scopes

/-- The lines around the anchor of an open block: those before the declarations that wait in front
of the opener, and those the opener itself has written. -/
structure Opening where
  base : List String
  own  : List String

/-- An anchor with `distance` lines behind it. -/
def AnchorAt (text : Nat → List String) (anchors : List Anchor) (id page distance : Nat) : Prop :=
  ∃ a ∈ anchors, a.id = id ∧ a.page = page ∧ a.index + distance = (text page).length

/-- The pages show what was written in the open scopes: `out` in the innermost one, and around it
the openings with the declarations that wait in them.  A block goes on where its opener has begun a
line; a thread has a page of its own. -/
inductive Displays (indent : String) (text : Nat → List String) (anchors : List Anchor) :
    Scopes → List Opening → (openers writing : List Nat) → (out : List String) → Prop where
  | body {sc : Scope} {k : Nat} {out : List String} (shown : text k = out) :
      Displays indent text anchors [sc] [] [] [k] out
  | block {sc sc' : Scope} {ss : Scopes} {base own : List String} {fs : List Opening}
      {opener : Nat} {openers : List Nat} {k : Nat} {writing : List Nat} {out : List String}
      (isBlock : sc.isThread = false) (begun : own ≠ [])
      (anchor : AnchorAt text anchors opener k (own ++ out).length)
      (outer : Displays indent text anchors (sc' :: ss) fs openers (k :: writing)
        (base ++ sc'.hoisted.render indent (depth (sc' :: ss)) ++ own ++ out)) :
      Displays indent text anchors (sc :: sc' :: ss) (⟨base, own⟩ :: fs) (opener :: openers)
        (k :: writing) out
  | thread {sc sc' : Scope} {ss : Scopes} {base own : List String} {fs : List Opening}
      {opener : Nat} {openers : List Nat} {j k : Nat} {writing : List Nat} {out : List String}
      (isThread : sc.isThread = true) (fresh : j ∉ k :: writing) (shown : text j = out)
      (anchor : AnchorAt text anchors opener k own.length)
      (outer : Displays indent text anchors (sc' :: ss) fs openers (k :: writing)
        (base ++ sc'.hoisted.render indent (depth (sc' :: ss)) ++ own)) :
      Displays indent text anchors (sc :: sc' :: ss) (⟨base, own⟩ :: fs) (opener :: openers)
        (j :: k :: writing) out

theorem Scopes.depth_congr : ∀ {ss ss' : Scopes}, ss.map (·.isThread) = ss'.map (·.isThread) →
    depth ss = depth ss'
  | [], [], _ => rfl
  | [_], [_], _ => rfl
  | sc :: sc₁ :: ss, sc' :: sc₁' :: ss', h => by
    obtain ⟨htop, hrest⟩ := List.cons.inj h
    dsimp only at htop
    rw [depth, depth, depth_congr hrest, htop]
  | [], _ :: _, h | _ :: _, [], h | [_], _ :: _ :: _, h | _ :: _ :: _, [_], h => by simp at h

@[simp] theorem Scopes.depth_setTop (sc : Scope) (ss : Scopes) (code : Code) :
    depth ({ sc with hoisted := code } :: ss) = depth (sc :: ss) := depth_congr rfl

theorem Scopes.depth_hoist (sc₁ sc : Scope) (hid ss : Scopes) (code : Code) :
    depth (sc₁ :: (hid ++ { sc with hoisted := code } :: ss)) =
      depth (sc₁ :: hid.append (sc :: ss)) := depth_congr (by simp)

@[simp] theorem Code.render_append (indent : String) (depth : Nat) (c c' : Code) :
    (c ++ c').render indent depth = c.render indent depth ++ c'.render indent depth := by
  induction c <;> simp_all [render]

namespace Displays

variable {k : Nat} {b : Anchor}

variable {indent : String} {text text' : Nat → List String} {anchors anchors' : List Anchor}
  {sc sc' : Scope} {ss ss' : Scopes} {fs : List Opening} {openers writing : List Nat}
  {out : List String}

/-- Each scope but the outermost has an opener. -/
theorem length (h : Displays indent text anchors ss fs openers writing out) :
    openers.length + 1 = ss.length := by
  induction h with
  | body => rfl
  | block _ _ _ _ ih => simp only [List.length_cons, ih]
  | thread _ _ _ _ _ ih => simp only [List.length_cons, ih]

theorem writing_ne_nil (h : Displays indent text anchors ss fs openers writing out) :
    writing ≠ [] := by
  cases h <;> exact List.cons_ne_nil _ _

/-- The page that is being written ends with what was written in the innermost scope. -/
theorem exists_append (h : Displays indent text anchors ss fs openers (k :: writing) out) :
    ∃ lead, text k = lead ++ out := by
  generalize hw : k :: writing = ws at h
  induction h with
  | body shown =>
    cases hw
    exact ⟨[], shown⟩
  | block _ _ _ _ ih =>
    cases hw
    obtain ⟨lead, h⟩ := ih rfl
    exact ⟨_, h.trans (List.append_assoc ..).symm⟩
  | thread _ _ shown _ _ _ =>
    cases hw
    exact ⟨[], shown⟩

/-- Where no block is open, the page is what was written. -/
theorem text_eq (h : Displays indent text anchors ss [] openers [k] out) : text k = out := by
  cases h with
  | body shown => exact shown

/-- Pages that are not being written and their anchors do not matter. -/
theorem of_writing (h : Displays indent text anchors ss fs openers writing out)
    (ht : ∀ k ∈ writing, text' k = text k)
    (ha : ∀ a ∈ anchors, a.page ∈ writing → a ∈ anchors') :
    Displays indent text' anchors' ss fs openers writing out := by
  have hanchor : ∀ {id page distance}, page ∈ writing → AnchorAt text anchors id page distance →
      AnchorAt text' anchors' id page distance := by
    rintro id page distance hp ⟨a, hmem, hid, rfl, hdist⟩
    exact ⟨a, ha a hmem hp, hid, rfl, by rw [ht _ hp]; exact hdist⟩
  induction h with
  | body shown => exact .body ((ht _ (.head _)).trans shown)
  | block isBlock begun anchor _ ih =>
    exact .block isBlock begun (hanchor (.head _) anchor) (ih ht ha hanchor)
  | thread isThread fresh shown anchor _ ih =>
    exact .thread isThread fresh ((ht _ (.head _)).trans shown)
      (hanchor (.tail _ (.head _)) anchor)
      (ih (fun k hk => ht k (.tail _ hk)) (fun a hm hp => ha a hm (.tail _ hp))
        fun hp => hanchor (.tail _ hp))

/-- The declarations that wait in the innermost scope do not show: no block inside it is open. -/
theorem of_isThread (h : Displays indent text anchors (sc :: ss) fs openers writing out)
    (ht : sc'.isThread = sc.isThread) :
    Displays indent text anchors (sc' :: ss) fs openers writing out := by
  cases h with
  | body shown => exact .body shown
  | block isBlock begun anchor outer => exact .block (ht.trans isBlock) begun anchor outer
  | thread isThread fresh shown anchor outer =>
    exact .thread (ht.trans isThread) fresh shown anchor outer

theorem setTop (h : Displays indent text anchors (sc :: ss) fs openers writing out) (code : Code) :
    Displays indent text anchors ({ sc with hoisted := code } :: ss) fs openers writing out :=
  h.of_isThread rfl

/-- An anchor no scope was opened at can go. -/
theorem drop_anchor {a : Anchor} (h : Displays indent text (a :: anchors) ss fs openers writing out)
    (ha : a.id ∉ openers) : Displays indent text anchors ss fs openers writing out := by
  have hanchor : ∀ {id page distance}, a.id ≠ id → AnchorAt text (a :: anchors) id page distance →
      AnchorAt text anchors id page distance := by
    rintro id page distance hne ⟨b, hmem, hid, hrest⟩
    rcases List.mem_cons.mp hmem with rfl | hmem
    · exact absurd hid hne
    · exact ⟨b, hmem, hid, hrest⟩
  induction h with
  | body shown => exact .body shown
  | block isBlock begun anchor _ ih =>
    exact .block isBlock begun (hanchor (List.ne_of_not_mem_cons ha) anchor)
      (ih (List.not_mem_of_not_mem_cons ha))
  | thread isThread fresh shown anchor _ ih =>
    exact .thread isThread fresh shown (hanchor (List.ne_of_not_mem_cons ha) anchor)
      (ih (List.not_mem_of_not_mem_cons ha))

/-- Lines are put into the page that is being written, inside the innermost scope.  The anchors
before them stay where they are. -/
theorem insert {p q new : List String}
    (h : Displays indent text anchors ss fs openers (k :: writing) (p ++ q))
    (hk : ∀ lead, text k = lead ++ q → text' k = lead ++ new ++ q)
    (hne : ∀ j, j ≠ k → text' j = text j)
    (ha : ∀ a ∈ anchors, (a.page = k → a.index + q.length < (text k).length) → a ∈ anchors') :
    Displays indent text' anchors' ss fs openers (k :: writing) (p ++ new ++ q) := by
  have hlength : (text' k).length = (text k).length + new.length := by
    obtain ⟨lead, hlead⟩ := h.exists_append
    rw [← List.append_assoc] at hlead
    rw [hk _ hlead, hlead]
    simp only [List.length_append]
    omega
  generalize hw : k :: writing = ws at h
  generalize hout : p ++ q = out at h
  induction h generalizing p with
  | body shown =>
    cases hw
    exact .body (hk p (shown.trans hout.symm))
  | @block sc sc' ss base own fs opener openers k writing out isBlock begun anchor outer ih =>
    cases hw
    subst hout
    obtain ⟨a, hmem, hid, hpage, hdist⟩ := anchor
    have hpos : 0 < own.length := List.length_pos_iff.mpr begun
    simp only [List.length_append] at hdist
    refine .block isBlock begun ⟨a, ha a hmem fun _ => by omega, hid, hpage, ?_⟩ ?_
    · rw [hlength]
      simp only [List.length_append]
      omega
    · have := ih (p := base ++ sc'.hoisted.render indent (depth (sc' :: ss)) ++ own ++ p) rfl
        (by simp)
      simpa using this
  | @thread sc sc' ss base own fs opener openers j k₁ writing out isThread fresh shown anchor outer
    ih =>
    cases hw
    obtain ⟨a, hmem, hid, rfl, hdist⟩ := anchor
    have hother : ∀ j ∈ a.page :: writing, j ≠ k := fun j hj hjk => fresh (hjk ▸ hj)
    refine .thread isThread fresh (hk p (shown.trans hout.symm))
      ⟨a, ha a hmem fun hp => absurd hp (hother _ (.head _)), hid, rfl, ?_⟩ ?_
    · rw [hne _ (hother _ (.head _))]
      exact hdist
    · exact outer.of_writing (fun j hj => hne j (hother j hj))
        fun b hb hp => ha b hb fun h => absurd h (hother _ hp)

/-! ### Hoisting -/

/-- The pages after lines were spliced in at an anchor. -/
def spliceText (text : Nat → List String) (b : Anchor) (texts : List String) (k : Nat) :
    List String :=
  if k = b.page then (text k).take b.index ++ texts ++ (text k).drop b.index else text k

theorem spliceText_of_ne (h : k ≠ b.page) (texts : List String) :
    spliceText text b texts k = text k := if_neg h

theorem length_spliceText (text : Nat → List String) (b : Anchor) (texts : List String) :
    (spliceText text b texts b.page).length = (text b.page).length + texts.length := by
  rw [spliceText, if_pos rfl]
  conv_rhs => rw [← List.take_append_drop b.index (text b.page)]
  simp only [List.length_append]
  omega

/-- Lines are spliced in at the anchor `b`, which stands behind `p` and in front of `q`. -/
theorem insert_at {p q : List String}
    (h : Displays indent text anchors ss fs openers (b.page :: writing) (p ++ q))
    (hb : b.index + q.length = (text b.page).length) (texts : List String) :
    Displays indent (spliceText text b texts) (anchors.map (b.moved texts.length)) ss fs openers
      (b.page :: writing) (p ++ texts ++ q) := by
  refine h.insert (fun lead hlead => ?_) (fun j hj => spliceText_of_ne hj texts)
    fun a ha hbefore => ?_
  · have hindex : b.index = lead.length := by
      rw [hlead, List.length_append] at hb
      omega
    rw [spliceText, if_pos rfl, hlead, hindex, List.take_left, List.drop_left]
  · refine List.mem_map.mpr ⟨a, ha, if_neg ?_⟩
    rintro ⟨hpage, hle⟩
    have := hbefore hpage
    omega

/-- The opener's anchor after lines were spliced in at it or further out. -/
theorem anchorAt_spliceText {id page distance : Nat} (texts : List String)
    (h : AnchorAt text anchors id page distance)
    (hb : b.page = page → b.index + distance ≤ (text page).length) :
    AnchorAt (spliceText text b texts) (anchors.map (b.moved texts.length)) id page distance := by
  obtain ⟨a, ha, hid, rfl, hdist⟩ := h
  refine ⟨b.moved texts.length a, List.mem_map_of_mem ha, by simpa using hid, by simp, ?_⟩
  by_cases hpage : b.page = a.page
  · have hle := hb hpage
    rw [Anchor.moved, if_pos ⟨hpage.symm, by omega⟩, ← hpage, length_spliceText, hpage]
    dsimp only
    omega
  · rw [Anchor.moved, if_neg fun h => hpage h.1.symm, spliceText_of_ne (Ne.symm hpage)]
    exact hdist

theorem anchorAt_eq {page distance : Nat} (hnodup : (anchors.map (·.id)).Nodup) (hb : b ∈ anchors)
    (h : AnchorAt text anchors b.id page distance) :
    b.page = page ∧ b.index + distance = (text page).length := by
  obtain ⟨a, ha, hid, hrest⟩ := h
  obtain rfl : a = b := List.inj_on_of_nodup_map hnodup ha hb hid
  exact hrest

/-- The opener of the only scope inside `sc`. -/
theorem opener_eq (h : Displays indent text anchors (sc :: ss) fs openers writing out)
    {opener : Nat} (hop : (opener :: openers).reverse[ss.length]? = some b.id) : opener = b.id := by
  have hlength : openers.length = ss.length := Nat.succ.inj h.length
  rw [List.reverse_cons, ← hlength, ← List.length_reverse, List.getElem?_concat_length] at hop
  exact Option.some.inj hop

theorem opener_outer {hid : Scopes}
    (h : Displays indent text anchors (hid ++ sc :: ss) fs openers writing out) (hne : hid ≠ [])
    {opener : Nat} : (opener :: openers).reverse[ss.length]? = openers.reverse[ss.length]? := by
  have hlength := h.length
  have hpos : 0 < hid.length := List.length_pos_iff.mpr hne
  rw [List.length_append, List.length_cons] at hlength
  rw [List.reverse_cons, List.getElem?_append_left]
  rw [List.length_reverse]
  omega

/-- **A hoisted declaration comes to stand behind those that wait in its scope.**  The scopes `hid`
are hidden while it is made. -/
theorem hoist (code : Code) (hnodup : (anchors.map (·.id)).Nodup) (hb : b ∈ anchors) :
    ∀ {hid : Scopes} {fs : List Opening} {openers writing : List Nat} {out : List String},
      hid ≠ [] → Displays indent text anchors (hid ++ sc :: ss) fs openers writing out →
      openers.reverse[ss.length]? = some b.id →
      let texts := code.render indent (depth (sc :: ss))
      Displays indent (spliceText text b texts) (anchors.map (b.moved texts.length))
          (hid ++ { sc with hoisted := sc.hoisted ++ code } :: ss) fs openers writing out ∧
        b.page ∈ writing ∧
        (writing.head? = some b.page → b.index + out.length ≤ (text b.page).length)
  | [], _, _, _, _, hne, _, _ => absurd rfl hne
  | [_], _, _, _, _, _, .block isBlock begun anchor outer, hop => by
    intro texts
    cases outer.opener_eq hop
    obtain ⟨rfl, hdist⟩ := anchorAt_eq hnodup hb anchor
    have hmoved := anchorAt_spliceText texts anchor fun _ => Nat.le_of_eq hdist
    rw [List.append_assoc] at outer
    have hhoisted := (outer.insert_at hdist texts).setTop (sc.hoisted ++ code)
    refine ⟨.block isBlock begun hmoved ?_, .head _, fun _ => ?_⟩
    · simpa [texts] using hhoisted
    · rw [List.length_append] at hdist
      omega
  | [_], _, _, _, _, _, .thread isThread fresh shown anchor outer, hop => by
    intro texts
    cases outer.opener_eq hop
    obtain ⟨rfl, hdist⟩ := anchorAt_eq hnodup hb anchor
    have hmoved := anchorAt_spliceText texts anchor fun _ => Nat.le_of_eq hdist
    have hhoisted := (outer.insert_at hdist texts).setTop (sc.hoisted ++ code)
    have hne : _ ≠ b.page := fun h => fresh (h ▸ .head _)
    refine ⟨.thread isThread fresh ((spliceText_of_ne hne texts).trans shown) hmoved ?_,
      .tail _ (.head _), fun h => absurd (Option.some.inj h) hne⟩
    simpa [texts] using hhoisted
  | _ :: sc₁ :: hid, _, _, _, _, _, .block isBlock begun anchor outer, hop => by
    intro texts
    rw [outer.opener_outer (List.cons_ne_nil sc₁ hid)] at hop
    obtain ⟨ih, hmem, hle⟩ := hoist code hnodup hb (List.cons_ne_nil sc₁ hid) outer hop
    rw [← depth_hoist] at ih
    refine ⟨.block isBlock begun (anchorAt_spliceText texts anchor fun hpage => ?_) ih, hmem,
      fun hpage => ?_⟩
    · have := hle (congrArg some hpage.symm)
      simp only [List.length_append] at this ⊢
      rw [← hpage]
      omega
    · have := hle hpage
      simp only [List.length_append] at this
      omega
  | _ :: sc₁ :: hid, _, _, _, _, _, @thread _ _ _ _ _ _ _ _ _ _ _ j _ _ _ isThread fresh shown
    anchor outer, hop => by
    intro texts
    rw [outer.opener_outer (List.cons_ne_nil sc₁ hid)] at hop
    obtain ⟨ih, hmem, hle⟩ := hoist code hnodup hb (List.cons_ne_nil sc₁ hid) outer hop
    rw [← depth_hoist] at ih
    have hne : j ≠ b.page := fun h => fresh (h ▸ hmem)
    refine ⟨.thread isThread fresh ((spliceText_of_ne hne texts).trans shown)
      (anchorAt_spliceText texts anchor fun hpage => ?_) ih, .tail _ hmem,
      fun h => absurd (Option.some.inj h) hne⟩
    have := hle (congrArg some hpage.symm)
    simp only [List.length_append] at this
    rw [← hpage]
    omega

end Displays

end VisualScript
