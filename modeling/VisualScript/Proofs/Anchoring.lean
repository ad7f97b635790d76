import VisualScript.Proofs.Drafting

/-!
# Proofs — Anchoring

Where hoisted declarations stand in the text of a function.  While the items of a node are written,
its anchor stands behind the declarations that wait in front of it and before its own lines
(`Draft.Awaits`).  So the edits of a pass write the code it returns, provided a node writes a line
before it opens a block (`Chain.Steady`).

* `EditLog.walk_text`: at the end the page of the body has the text of the code.
-/

namespace VisualScript

open Evaluation Scopes

/-- The declarations that wait in front of the node that is being written. -/
def Scopes.hoistedLines (indent : String) : Scopes → List String
  | []       => []
  | sc :: ss => sc.hoisted.render indent (depth (sc :: ss))

namespace Draft

/-- The items of a node are being written: `base` stands in front of it, then the declarations that
wait, the anchor of the node, and the lines it has written. -/
structure Awaits (indent : String) (d : Draft) (ss : Scopes) (fs : List Opening)
    (base own : List String) : Prop where
  presents : d.Presents indent ss fs (base ++ hoistedLines indent ss ++ own)
  anchor   : ∃ a as, d.anchors = a :: as ∧ a.page = d.page ∧
    a.index + own.length = (d.text d.page).length

variable {indent : String} {d d' : Draft} {sc sc' : Scope} {ss : Scopes} {fs : List Opening}
  {base own out : List String}

theorem Presents.setTop (h : d.Presents indent (sc :: ss) fs out) (code : Code) :
    d.Presents indent ({ sc with hoisted := code } :: ss) fs out := ⟨h.sound, h.pages.setTop code⟩

/-- An anchor is set. -/
theorem Presents.enter (h : d.Presents indent ss fs out) (node : String) :
    (d.step (.enter node)).Presents indent ss fs out :=
  ⟨h.sound.step _, h.pages.of_writing (fun _ _ => rfl) fun _ ha _ => .tail _ ha⟩

theorem Presents.awaits (h : d.Presents indent (sc :: ss) fs out) (node : String) :
    (d.step (.enter node)).Awaits indent ({ sc with hoisted := .done } :: ss) fs out [] := by
  refine ⟨?_, _, _, rfl, rfl, ?_⟩
  · simpa [hoistedLines, Code.render] using (h.setTop .done).enter node
  · simp [Draft.text, step, apply, page]

/-- The items of a node end. -/
theorem Presents.leave {node : String} (hd : d.Sound)
    (hlive : ∀ k ∈ d.openers, k ∈ d.anchors.map (·.id)) (h : d'.Presents indent ss fs out)
    (hs : (d.step (.enter node)).SameOpen d') :
    (d'.step .leave).Presents indent ss fs out := by
  refine ⟨h.sound.step _, ?_⟩
  have hids : d'.anchors.map (·.id) = d.moment :: d.anchors.map (·.id) := hs.anchors
  have hopeners : d'.openers = d.openers := hs.openers
  cases hanchors : d'.anchors with
  | nil => rw [hanchors] at hids; cases hids
  | cons a as =>
    have hp := h.pages
    rw [hanchors] at hids hp
    have hstep : (d'.step .leave).anchors = as := by simp [step, apply, hanchors]
    rw [hstep]
    refine hp.drop_anchor fun hmem => ?_
    -- the anchor is newer than those of the open scopes
    have hnew : a.id = d.moment := (List.cons.inj hids).1
    rw [hopeners, hnew] at hmem
    obtain ⟨b, hb, hid⟩ := List.mem_map.mp (hlive _ hmem)
    exact absurd hid (Nat.ne_of_lt (hd.anchors b hb).1)

namespace Awaits

theorem append (h : d.Awaits indent ss fs base own) (text : String) :
    (d.step (.append text)).Awaits indent ss fs base (own ++ [text]) := by
  obtain ⟨a, as, ha, hpage, hdist⟩ := h.anchor
  refine ⟨by simpa using h.presents.append text, a, as, ha, hpage, ?_⟩
  have hlength : ((d.step (.append text)).text (d.step (.append text)).page).length =
      (d.text d.page).length + 1 := by simp [Draft.text, step, apply, setPage, page]
  rw [hlength, List.length_append, List.length_singleton, ← hdist]
  rfl

/-- A block goes on behind the lines its opener has written. -/
theorem openBlock (h : d.Awaits indent (sc :: ss) fs base own) (hown : own ≠ [])
    (hb : sc'.isThread = false) :
    (d.step .openBlock).Presents indent (sc' :: sc :: ss) (⟨base, own⟩ :: fs) [] := by
  refine ⟨h.presents.sound.step _, ?_⟩
  obtain ⟨a, as, ha, hpage, hdist⟩ := h.anchor
  obtain ⟨ws, hw⟩ := h.presents.writing_eq
  have hp := h.presents.pages
  have hopeners : (d.step .openBlock).openers = a.id :: d.openers := by
    simp [step, apply, Draft.openBlock, ha]
  have hwriting : (d.step .openBlock).writing = d.page :: ws := hw
  rw [hw] at hp
  rw [hopeners, hwriting]
  refine .block hb hown ⟨a, ?_, rfl, hpage, ?_⟩ ?_
  · show a ∈ d.anchors
    rw [ha]
    exact .head _
  · rw [List.append_nil]
    exact hdist
  · rw [List.append_nil]
    exact hp

/-- The anchor of the node is the one the innermost scope was opened at. -/
theorem anchor_of_opener {k distance opener : Nat} {openers : List Nat} (hd : d'.Sound)
    (hhead : d'.anchors.head?.map (·.id) = d'.openers.head?)
    (hopeners : d'.openers = opener :: openers)
    (h : AnchorAt d'.text d'.anchors opener k distance) :
    ∃ a as, d'.anchors = a :: as ∧ a.page = k ∧ a.index + distance = (d'.text k).length := by
  cases hanchors : d'.anchors with
  | nil => rw [hanchors, hopeners] at hhead; cases hhead
  | cons a as =>
    rw [hanchors, hopeners] at hhead
    obtain rfl : a.id = opener := Option.some.inj hhead
    have ha : a ∈ d'.anchors := by rw [hanchors]; exact .head _
    exact ⟨a, as, rfl, Displays.anchorAt_eq hd.nodup ha h⟩

/-- A block ends, and its opener goes on. -/
theorem closeBlock (hb : sc'.isThread = false)
    (h : d.Presents indent (sc' :: sc :: ss) (⟨base, own⟩ :: fs) out)
    (hhead : d.anchors.head?.map (·.id) = d.openers.head?) :
    (d.step .closeBlock).Awaits indent (sc :: ss) fs base (own ++ out) := by
  obtain ⟨ws, hw⟩ := h.writing_eq
  have hp := h.pages
  generalize hops : d.openers = ops at hp
  rw [hw] at hp
  cases hp with
  | block _ _ anchor outer =>
    have hanchor := anchor_of_opener h.sound hhead hops anchor
    refine ⟨⟨h.sound.step _, ?_⟩, hanchor⟩
    have hopeners : (d.step .closeBlock).openers = d.openers.tail := rfl
    have hwriting : (d.step .closeBlock).writing = d.page :: ws := hw
    rw [hopeners, hops, hwriting, ← List.append_assoc]
    exact outer
  | thread isThread => exact absurd (hb.symm.trans isThread) Bool.false_ne_true

/-- A thread gets a page of its own. -/
theorem openThread (h : d.Awaits indent (sc :: ss) fs base own) (ht : sc'.isThread = true) :
    (d.step .openThread).Presents indent (sc' :: sc :: ss) (⟨base, own⟩ :: fs) [] := by
  refine ⟨h.presents.sound.step _, ?_⟩
  obtain ⟨a, as, ha, hpage, hdist⟩ := h.anchor
  obtain ⟨ws, hw⟩ := h.presents.writing_eq
  have hp := h.presents.pages
  have hfresh : ∀ k ∈ d.page :: ws, k ≠ d.moment := fun k hk =>
    Nat.ne_of_lt (h.presents.sound.writing k (hw ▸ hk))
  have htext : ∀ k ∈ d.page :: ws, (d.step .openThread).text k = d.text k := by
    intro k hk
    simp [Draft.text, step, apply, setPage, Draft.openBlock, hfresh k hk]
  have hopeners : (d.step .openThread).openers = a.id :: d.openers := by
    simp [step, apply, Draft.openBlock, setPage, ha]
  have hwriting : (d.step .openThread).writing = d.moment :: d.page :: ws := by
    simp [step, apply, hw]
  rw [hw] at hp
  rw [hopeners, hwriting]
  refine .thread ht (fun hmem => hfresh _ hmem rfl) ?_ ⟨a, ?_, rfl, hpage, ?_⟩ ?_
  · simp [Draft.text, step, apply, setPage]
  · show a ∈ d.anchors
    rw [ha]
    exact .head _
  · rw [htext _ (.head _)]
    exact hdist
  · exact hp.of_writing htext fun _ hb _ => hb

/-- A thread ends, and its page is the body of a function. -/
theorem closeThread (ht : sc'.isThread = true)
    (h : d.Presents indent (sc' :: sc :: ss) (⟨base, own⟩ :: fs) out)
    (hhead : d.anchors.head?.map (·.id) = d.openers.head?) (header : String) :
    (d.step (.closeThread header)).Awaits indent (sc :: ss) fs base own ∧
      (d.step (.closeThread header)).threads =
        d.threads ++ [[header, "\x7b"] ++ out ++ ["\x7d"]] := by
  obtain ⟨ws, hw⟩ := h.writing_eq
  have hp := h.pages
  generalize hops : d.openers = ops at hp
  rw [hw] at hp
  cases hp with
  | block isBlock => exact absurd (isBlock.symm.trans ht) Bool.false_ne_true
  | @thread _ _ _ _ _ _ _ _ _ k ws _ _ fresh shown anchor outer =>
    have hopeners : (d.step (.closeThread header)).openers = d.openers.tail := rfl
    have hwriting : (d.step (.closeThread header)).writing = k :: ws := by
      simp [step, apply, hw]
    refine ⟨⟨⟨h.sound.step _, ?_⟩, ?_⟩, ?_⟩
    · rw [hopeners, hops, hwriting]
      exact outer
    · have hpage : (d.step (.closeThread header)).page = k := by rw [page, hwriting]; rfl
      have hanchor := anchor_of_opener h.sound hhead hops anchor
      rw [hpage]
      exact hanchor
    · rw [← shown]
      rfl

end Awaits

end Draft

/-! ### Flows that write a line before they open a block -/

/-- Items of a node that never go on at the level of the node, and that begin with a line or a
thread.  `begun` says that a line has been written. -/
def Parts.Leads : (begun : Bool) → Parts → Prop
  | _,     .done                => True
  | _,     .line _ rest         => rest.Leads true
  | _,     .follow _ _          => False
  | begun, .block _ _ _ _ rest  => begun = true ∧ rest.Leads true
  | _,     .thread _ _ _ _ rest => rest.Leads true

mutual

/-- Every node of the chain only goes on from chain to chain, or writes a line before it opens a
block. -/
def Chain.Steady : Chain → Prop
  | .done | .halt _  => True
  | .step _ own rest => (own.OnlyFollows ∨ own.Leads false) ∧ own.Steady ∧ rest.Steady

def Parts.Steady : Parts → Prop
  | .done                   => True
  | .line _ rest            => rest.Steady
  | .follow body rest       => body.Steady ∧ rest.Steady
  | .block _ _ _ body rest  => body.Steady ∧ rest.Steady
  | .thread _ _ _ body rest => body.Steady ∧ rest.Steady

end

/-! ### A pass writes its code -/

namespace EditLog

open Draft

variable {indent : String} {x : Index} {pass : Pass} {d d' : Draft} {fs : List Opening}
  {base own out : List String} {s s' : State}

theorem hoistedLines_eq (indent : String) (s : State) :
    hoistedLines indent s.scopes = (Walk.hoisted s).render indent (depth s.scopes) := by
  unfold Walk.hoisted
  cases s.scopes <;> rfl

theorem scopes_eq (h : d.Presents indent s.scopes fs out) : ∃ sc ss, s.scopes = sc :: ss := by
  have := h.pages.length
  exact List.exists_cons_of_length_pos (by omega)

theorem setHoisted_scopes {sc : Scope} {ss : Scopes} (hs : s.scopes = sc :: ss) (code : Code) :
    (Walk.setHoisted s code).scopes = { sc with hoisted := code } :: ss := by
  simp [Walk.setHoisted, hs, modifyTop]

theorem presents_setHoisted (h : d.Presents indent s.scopes fs out) (code : Code) :
    d.Presents indent (Walk.setHoisted s code).scopes fs out := by
  obtain ⟨sc, ss, hs⟩ := scopes_eq h
  rw [hs] at h
  rw [setHoisted_scopes hs]
  exact h.setTop code

theorem awaits_setHoisted (h : d.Presents indent s.scopes fs out) (node : String) :
    (d.step (.enter node)).Awaits indent (Walk.setHoisted s .done).scopes fs out [] := by
  obtain ⟨sc, ss, hs⟩ := scopes_eq h
  rw [hs] at h
  rw [setHoisted_scopes hs]
  exact h.awaits node

@[simp] theorem depth_setHoisted (s : State) (code : Code) :
    depth (Walk.setHoisted s code).scopes = depth s.scopes := by
  cases hs : s.scopes with
  | nil => simp [Walk.setHoisted, hs, modifyTop]
  | cons sc ss => rw [setHoisted_scopes hs, depth_setTop]

theorem layout_openBlock (n : PlacedNode) (key : BlockKey) (isThread : Bool)
    (bindings : List (String × Nat)) (vars : List String) (s : State) :
    layout (Walk.openBlock n key isThread bindings vars s).scopes =
      layout ({ key := some key, isThread := isThread } :: s.scopes) := layout_bindOutputs n _ _

/-- The scopes after a nested chain: that of its block, and those that were open before. -/
theorem closeBlock_scopes {n : PlacedNode} {key : BlockKey} {isThread : Bool}
    {bindings : List (String × Nat)} {vars : List String} {sc : Scope} {ss : Scopes}
    (hs : s.scopes = sc :: ss)
    (h : Grow (Walk.openBlock n key isThread bindings vars s).scopes s'.scopes) :
    ∃ sc₀ sc₁ ss₁, s'.scopes = sc₀ :: sc₁ :: ss₁ ∧ sc₀.isThread = isThread ∧
      (Walk.closeBlock s').2.scopes = sc₁ :: ss₁ := by
  have hopen : Grow ({ key := some key, isThread := isThread } :: sc :: ss) s'.scopes :=
    hs ▸ (Walk.bindOutputs_grow n _ _).trans h
  unfold Walk.closeBlock
  generalize s'.scopes = ts at hopen
  cases hopen with
  | cons h₀ hopen =>
    cases hopen with
    | cons _ _ => exact ⟨_, _, _, rfl, h₀.isThread, rfl⟩

/-- The node whose items are written is the opener of the innermost scope. -/
theorem head_of_open (hne : d.anchors ≠ [])
    (hids : d'.anchors.map (·.id) = d.anchors.map (·.id))
    (hopeners : d'.openers = d.openBlock.openers) :
    d'.anchors.head?.map (·.id) = d'.openers.head? := by
  obtain ⟨a, as, ha⟩ := List.exists_cons_of_ne_nil hne
  rw [← List.head?_map, hids, hopeners]
  simp [Draft.openBlock, ha]

theorem anchors_ne_nil (h : d.Awaits indent s.scopes fs base own) : d.anchors ≠ [] := by
  obtain ⟨a, as, ha, -⟩ := h.anchor
  rw [ha]
  exact List.cons_ne_nil _ _

section Block

variable (n : PlacedNode) (key : BlockKey) (bindings : List (String × Nat)) (vars : List String)

theorem presents_openBlock (h : d.Awaits indent s.scopes fs base own) (hown : own ≠ []) :
    (d.step .openBlock).Presents indent (Walk.openBlock n key false bindings vars s).scopes
        (⟨base, own⟩ :: fs) [] ∧
      depth (Walk.openBlock n key false bindings vars s).scopes = depth s.scopes + 1 := by
  obtain ⟨sc, ss, hs⟩ := scopes_eq h.presents
  have hlayout := layout_openBlock n key false bindings vars s
  rw [hs] at h hlayout
  refine ⟨(h.openBlock hown rfl).congr hlayout, ?_⟩
  rw [depth_of_layout hlayout, hs]
  rfl

theorem presents_openThread (h : d.Awaits indent s.scopes fs base own) :
    (d.step .openThread).Presents indent (Walk.openBlock n key true bindings vars s).scopes
        (⟨base, own⟩ :: fs) [] ∧
      depth (Walk.openBlock n key true bindings vars s).scopes = 1 := by
  obtain ⟨sc, ss, hs⟩ := scopes_eq h.presents
  have hlayout := layout_openBlock n key true bindings vars s
  rw [hs] at h hlayout
  refine ⟨(h.openThread rfl).congr hlayout, ?_⟩
  rw [depth_of_layout hlayout]
  rfl

variable {n : PlacedNode} {key : BlockKey} {bindings : List (String × Nat)} {vars : List String}

theorem awaits_closeBlock (hd : d.Awaits indent s.scopes fs base own)
    (hgrow : Grow (Walk.openBlock n key false bindings vars s).scopes s'.scopes)
    (h : d'.Presents indent s'.scopes (⟨base, own⟩ :: fs) out)
    (hsame : (d.step .openBlock).SameOpen d') :
    (d'.step .closeBlock).Awaits indent (Walk.closeBlock s').2.scopes fs base (own ++ out) := by
  obtain ⟨sc, ss, hs⟩ := scopes_eq hd.presents
  obtain ⟨sc₀, sc₁, ss₁, hs', hthread, hclosed⟩ := closeBlock_scopes hs hgrow
  rw [hs'] at h
  rw [hclosed]
  exact Awaits.closeBlock hthread h
    (head_of_open (anchors_ne_nil hd) hsame.anchors hsame.openers)

theorem awaits_closeThread (hd : d.Awaits indent s.scopes fs base own)
    (hgrow : Grow (Walk.openBlock n key true bindings vars s).scopes s'.scopes)
    (h : d'.Presents indent s'.scopes (⟨base, own⟩ :: fs) out)
    (hsame : (d.step .openThread).SameOpen d') (header : String) :
    (d'.step (.closeThread header)).Awaits indent (Walk.closeBlock s').2.scopes fs base own ∧
      (d'.step (.closeThread header)).threads =
        d'.threads ++ [[header, "\x7b"] ++ out ++ ["\x7d"]] := by
  obtain ⟨sc, ss, hs⟩ := scopes_eq hd.presents
  obtain ⟨sc₀, sc₁, ss₁, hs', hthread, hclosed⟩ := closeBlock_scopes hs hgrow
  rw [hs'] at h
  rw [hclosed]
  exact Awaits.closeThread hthread h
    (head_of_open (anchors_ne_nil hd) hsame.anchors hsame.openers) header

end Block

/-- Only the end of a thread makes a thread function. -/
theorem threads_step {ed : Edit} (h : ∀ header, ed ≠ .closeThread header) :
    (d.step ed).threads = d.threads := by
  cases ed with
  | hoist level texts =>
    simp only [step, apply]
    cases d.opener? level <;> rfl
  | closeThread header => exact absurd rfl (h header)
  | _ => rfl

theorem threads_run {levels : Nat} {es : List Edit} (h : ∀ ed ∈ es, ed.Writes indent levels) :
    (d.run es).threads = d.threads := by
  induction es generalizing d with
  | nil => rfl
  | cons ed es ih =>
    rw [run_cons, ih fun ed' h' => h ed' (.tail _ h'), threads_step]
    rintro header rfl
    cases h _ (.head _)

theorem hoisted_setHoisted (s : State) :
    Walk.hoisted (Walk.setHoisted s .done) = .done := by
  unfold Walk.setHoisted Walk.hoisted
  cases s.scopes <;> rfl

theorem hoisted_onlyFollows {n : PlacedNode} {filling : Walk.Filling} : ∀ {p : Parts}
    {s s' : State} {code : Code}, p.OnlyFollows →
    Walk.parts x pass n filling p s = .ok (code, s') → Walk.hoisted s' = Walk.hoisted s
  | .done, _, _, _, _, h => by
    rw [Walk.parts] at h
    cases h
    rfl
  | .follow body rest, _, _, _, hshape, h => by
    rw [Walk.parts] at h
    obtain ⟨⟨inner, s₁⟩, h₁, h⟩ := bind_eq_ok.mp h
    obtain ⟨⟨behind, s₂⟩, h₂, h⟩ := bind_eq_ok.mp h
    cases h
    rw [hoisted_onlyFollows (show rest.OnlyFollows from hshape) h₂,
      ((keeping x pass).chain body h₁).2]

mutual

/-- **The edits of a chain write its code**, in the text of the open function and as functions of
the threads it starts. -/
theorem chain_presents : ∀ (c : Chain) {s s' : State} {code : Code} {d : Draft}
    {fs : List Opening} {out : List String}, c.Steady →
    Walk.chain x pass c s = .ok (code, s') → d.Presents indent s.scopes fs out →
      (d.run (chain indent x pass c s)).Presents indent s'.scopes fs
          (out ++ code.render indent (depth s.scopes)) ∧
        (d.run (chain indent x pass c s)).threads =
          d.threads ++ code.threads.map (·.render indent)
  | .done, s, s', code, d, fs, out, _, h, hd => by
    rw [Walk.chain] at h
    cases h
    simpa [chain, Code.render, Code.threads] using hd
  | .halt _, _, _, _, _, _, _, _, h, _ => by
    rw [Walk.chain] at h
    cases h
  | .step id own rest, s, s', code, d, fs, out, hsteady, h, hd => by
    obtain ⟨hshape, hown, hrest⟩ := hsteady
    rw [Walk.chain] at h
    split at h
    · cases h
    rename_i n hn
    obtain ⟨⟨filling, before, s₁⟩, h₁, h⟩ := bind_eq_ok.mp h
    obtain ⟨⟨inner, s₂⟩, h₂, h⟩ := bind_eq_ok.mp h
    obtain ⟨⟨behind, s₃⟩, h₃, h⟩ := bind_eq_ok.mp h
    cases h
    rw [chain]
    simp only [hn, h₁, h₂, after_ok, run_append, run_cons]
    have hentered := enter_presents h₁ hd
    obtain ⟨hgrow₁, hflat⟩ := enter_grow h₁
    have hgrow₂ := (keeping x pass).parts own h₂
    have hdepth₁ := hgrow₁.depth_eq
    have hdepth₂ : depth s₂.scopes = depth s.scopes := by
      rw [hgrow₂.depth_eq, depth_setHoisted, hdepth₁]
    have hfront : (Walk.hoisted s₂).Flat := (Walk.setHoisted_grow hgrow₂).2
    have hthreads : (d.run (enter indent x pass n s)).threads = d.threads :=
      threads_run (enter_writes s)
    have hsame :=
      parts_sameOpen indent own h₂ ((d.run (enter indent x pass n s)).step (.enter id))
    -- the node's own lines stand behind the declarations that wait in front of it
    obtain ⟨hwritten, htwritten⟩ :
        (((d.run (enter indent x pass n s)).step (.enter id)).run
            (parts indent x pass n filling own (Walk.setHoisted s₁ .done))).Presents indent
          s₂.scopes fs (out ++ before.render indent (depth s.scopes) ++
            (Walk.hoisted s₂).render indent (depth s₂.scopes) ++
            inner.render indent (depth (Walk.setHoisted s₁ .done).scopes)) ∧ _ := by
      rcases hshape with hfollow | hlead
      · have hnone : Walk.hoisted s₂ = .done := by
          rw [hoisted_onlyFollows hfollow h₂, hoisted_setHoisted]
        rw [hnone, Code.render, List.append_nil]
        exact parts_presents own hfollow hown h₂ ((presents_setHoisted hentered .done).enter id)
      · obtain ⟨hpresents, hthreads⟩ := parts_awaits own hlead
          (fun h => absurd h Bool.false_ne_true) hown h₂ (awaits_setHoisted hentered id)
        rw [← hoistedLines_eq]
        exact ⟨hpresents.presents, hthreads⟩
    have hleft := hwritten.leave hentered.sound hentered.fits.live hsame
    obtain ⟨hbehind, htbehind⟩ := chain_presents rest hrest h₃
      (presents_setHoisted hleft (Walk.hoisted s₁))
    rw [depth_setHoisted, depth_setHoisted, hdepth₁, hdepth₂] at hbehind
    refine ⟨?_, ?_⟩
    · simpa [Code.render] using hbehind
    · rw [htbehind, threads_step (by simp), htwritten, threads_step (by simp), hthreads]
      simp [Code.threads, hflat.threads_eq, hfront.threads_eq]

/-- Control goes on from chain to chain. -/
theorem parts_presents {n : PlacedNode} {filling : Walk.Filling} : ∀ (p : Parts) {s s' : State}
    {code : Code} {d : Draft} {fs : List Opening} {out : List String}, p.OnlyFollows → p.Steady →
    Walk.parts x pass n filling p s = .ok (code, s') → d.Presents indent s.scopes fs out →
      (d.run (parts indent x pass n filling p s)).Presents indent s'.scopes fs
          (out ++ code.render indent (depth s.scopes)) ∧
        (d.run (parts indent x pass n filling p s)).threads =
          d.threads ++ code.threads.map (·.render indent)
  | .done, s, s', code, d, fs, out, _, _, h, hd => by
    rw [Walk.parts] at h
    cases h
    simpa [parts, Code.render, Code.threads] using hd
  | .follow body rest, s, s', code, d, fs, out, hshape, hsteady, h, hd => by
    rw [Walk.parts] at h
    obtain ⟨⟨inner, s₁⟩, h₁, h⟩ := bind_eq_ok.mp h
    obtain ⟨⟨behind, s₂⟩, h₂, h⟩ := bind_eq_ok.mp h
    cases h
    rw [parts]
    simp only [h₁, after_ok, run_append]
    obtain ⟨hbody, htbody⟩ := chain_presents body hsteady.1 h₁ hd
    obtain ⟨hrest, htrest⟩ := parts_presents rest hshape hsteady.2 h₂ hbody
    rw [((keeping x pass).chain body h₁).1.depth_eq] at hrest
    exact ⟨by simpa using hrest, by simp [htrest, htbody]⟩
  | .line _ _, _, _, _, _, _, _, hshape, _, _, _ => hshape.elim
  | .block _ _ _ _ _, _, _, _, _, _, _, hshape, _, _, _ => hshape.elim
  | .thread _ _ _ _ _, _, _, _, _, _, _, hshape, _, _, _ => hshape.elim

/-- The items of a node are written behind its anchor. -/
theorem parts_awaits {n : PlacedNode} {filling : Walk.Filling} : ∀ (p : Parts) {begun : Bool}
    {s s' : State} {code : Code} {d : Draft} {fs : List Opening} {base own : List String},
    p.Leads begun → (begun = true → own ≠ []) → p.Steady →
    Walk.parts x pass n filling p s = .ok (code, s') → d.Awaits indent s.scopes fs base own →
      (d.run (parts indent x pass n filling p s)).Awaits indent s'.scopes fs base
          (own ++ code.render indent (depth s.scopes)) ∧
        (d.run (parts indent x pass n filling p s)).threads =
          d.threads ++ code.threads.map (·.render indent)
  | .done, begun, s, s', code, d, fs, base, own, _, _, _, h, hd => by
    rw [Walk.parts] at h
    cases h
    simpa [parts, Code.render, Code.threads] using hd
  | .line t rest, begun, s, s', code, d, fs, base, own, hlead, _, hsteady, h, hd => by
    rw [Walk.parts] at h
    obtain ⟨⟨behind, s₁⟩, h₁, h⟩ := bind_eq_ok.mp h
    cases h
    rw [parts, run_cons]
    obtain ⟨hrest, htrest⟩ := parts_awaits rest hlead (fun _ => by simp) hsteady h₁ (hd.append _)
    exact ⟨by simpa [Code.render] using hrest, htrest⟩
  | .follow _ _, _, _, _, _, _, _, _, _, hlead, _, _, _, _ => hlead.elim
  | .block port bindings tail body rest, begun, s, s', code, d, fs, base, own, hlead, hbegun,
    hsteady, h, hd => by
    rw [Walk.parts] at h
    obtain ⟨⟨inner, s₁⟩, h₁, h⟩ := bind_eq_ok.mp h
    obtain ⟨⟨behind, s₂⟩, h₂, h⟩ := bind_eq_ok.mp h
    cases h
    rw [parts]
    simp only [h₁, after_ok, List.cons_append, run_append, run_cons]
    have h₂ : Walk.parts x pass n filling rest (Walk.closeBlock s₁).2 = .ok (behind, s') := h₂
    obtain ⟨hopened, hdepth⟩ :=
      presents_openBlock n ⟨n.node.id, port⟩ bindings filling.vars hd (hbegun hlead.1)
    obtain ⟨hbody, htbody⟩ := chain_presents body hsteady.1 h₁ hopened
    have hgrow := ((keeping x pass).chain body h₁).1
    have htail := hbody.appends ((Code.ofLines tail).render indent (depth s.scopes + 1))
    have hsame := (chain_sameOpen indent body h₁ (d.step .openBlock)).trans
      (sameOpen_run (appends_writes indent 0
        ((Code.ofLines tail).render indent (depth s.scopes + 1))))
    have hclosed := awaits_closeBlock hd hgrow htail hsame
    obtain ⟨hrest, htrest⟩ := parts_awaits rest hlead.2
      (fun _ => by simp [hbegun hlead.1]) hsteady.2 h₂ hclosed
    rw [(Walk.closeBlock_grow hgrow).depth_eq, hdepth] at hrest
    refine ⟨by simpa [Code.render] using hrest, ?_⟩
    rw [htrest, threads_step (by simp), threads_run (appends_writes indent 0 _), htbody,
      threads_step (by simp)]
    simp [Code.threads]
  | .thread port name isConnected body rest, begun, s, s', code, d, fs, base, own, hlead, hbegun,
    hsteady, h, hd => by
    rw [Walk.parts.eq_def] at h
    dsimp only at h
    split at h
    · rename_i f hf
      obtain ⟨⟨behind, s₁⟩, h₁, h⟩ := bind_eq_ok.mp h
      cases h
      rw [parts_named hf, run_cons]
      obtain ⟨hrest, htrest⟩ := parts_awaits rest hlead (fun _ => by simp) hsteady.2 h₁
        (hd.append _)
      exact ⟨by simpa [Code.render] using hrest, htrest⟩
    · rename_i hunnamed
      obtain ⟨⟨inner, s₁⟩, h₁, h⟩ := bind_eq_ok.mp h
      obtain ⟨⟨behind, s₂⟩, h₂, h⟩ := bind_eq_ok.mp h
      cases h
      rw [parts_thread fun f hc hf => hunnamed f hc hf]
      simp only [h₁, after_ok, finishThread, List.cons_append, run_append, run_cons, run_nil]
      have h₂ : Walk.parts x pass n filling rest (Walk.closeBlock s₁).2 = .ok (behind, s₂) := h₂
      obtain ⟨hopened, hdepth⟩ := presents_openThread n ⟨n.node.id, port⟩ [] filling.vars hd
      obtain ⟨hbody, htbody⟩ := chain_presents body hsteady.1 h₁ hopened
      have hgrow := ((keeping x pass).chain body h₁).1
      have hsame := chain_sameOpen indent body h₁ (d.step .openThread)
      obtain ⟨hclosed, hfunction⟩ := awaits_closeThread hd hgrow hbody hsame
        ("void function " ++ name ++ "(" ++
          ", ".intercalate ((Walk.closeBlock s₁).1.map ("var " ++ ·)) ++ ")")
      obtain ⟨hrest, htrest⟩ := parts_awaits rest hlead (fun _ => by simp) hsteady.2 h₂
        (hclosed.append _)
      rw [(Walk.closeBlock_grow hgrow).depth_eq] at hrest
      refine ⟨by simpa [Code.render] using hrest, ?_⟩
      rw [htrest, threads_step (by simp), hfunction, htbody, threads_step (by simp), hdepth]
      simp [Code.threads, ThreadFunction.render]

end

/-- **The edits of a pass write the code it returns**: the body of the function on its page, and the
functions of the threads. -/
theorem walk_text {n : PlacedNode} {flow : Parts} {code : Code} {s : State}
    (hfollows : flow.OnlyFollows) (hsteady : flow.Steady)
    (h : EntryFunction.walkFlow x pass n flow = .ok (code, s)) :
    (ofEdits (walk indent x pass n flow)).text 0 = code.render indent 1 ∧
      (ofEdits (walk indent x pass n flow)).threads = code.threads.map (·.render indent) := by
  have hscopes := EntryFunction.initial_scopes n
  have hinitial : ({} : Draft).Presents indent (EntryFunction.initial n).scopes [] [] := by
    rw [hscopes]
    exact ⟨sound_empty, .body rfl⟩
  obtain ⟨hpresents, hthreads⟩ := parts_presents flow hfollows hsteady h hinitial
  have hwriting := (parts_sameOpen indent flow h {}).writing
  have hpages := hpresents.pages
  rw [hwriting, hscopes, List.nil_append] at hpages
  exact ⟨hpages.text_eq, hthreads⟩

end EditLog

end VisualScript
