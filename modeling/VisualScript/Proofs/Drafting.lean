import VisualScript.Proofs.Free
import VisualScript.Proofs.Pages

/-!
# Proofs — Drafting

The edits of a pass write the code it returns.  While a pass goes on, the draft shows what was
written in the open scopes and the declarations that wait there (`Draft.Presents`); reads and
entered nodes keep it so.
-/

namespace VisualScript

open Evaluation Scopes

/-- The text of a page. -/
def Draft.text (d : Draft) (k : Nat) : List String := (d.pages k).map (·.text)

/-- What of the scopes shows on the pages of a draft. -/
def Scopes.layout (ss : Scopes) : List (Bool × Code) := ss.map fun sc => (sc.isThread, sc.hoisted)

/-- The draft shows what was written in the open scopes, `out` in the innermost one. -/
structure Draft.Presents (indent : String) (d : Draft) (ss : Scopes) (fs : List Opening)
    (out : List String) : Prop where
  sound : d.Sound
  pages : Displays indent d.text d.anchors ss fs d.openers d.writing out

/-! ### The layout of scopes -/

namespace Scopes

theorem map_isThread_of_layout {ss ss' : Scopes} (h : layout ss = layout ss') :
    ss.map (·.isThread) = ss'.map (·.isThread) := by
  have := congrArg (List.map Prod.fst) h
  simpa [layout, List.map_map, Function.comp_def] using this

theorem depth_of_layout {ss ss' : Scopes} (h : layout ss = layout ss') : depth ss = depth ss' :=
  depth_congr (map_isThread_of_layout h)

@[simp] theorem layout_append (ss ts : Scopes) : layout (ss ++ ts) = layout ss ++ layout ts :=
  List.map_append

@[simp] theorem layout_bind (slot : Endpoint) (value : Expr) (ss : Scopes) :
    layout (bind slot value ss) = layout ss := by
  cases ss <;> rfl

theorem layout_sameAs {ss ss' : Scopes} (h : List.Forall₂ Scope.SameAs ss ss') :
    layout ss' = layout ss := by
  induction h with
  | nil => rfl
  | cons h _ ih =>
    rw [layout, layout, List.map_cons, List.map_cons, h.isThread, h.hoisted]
    exact congrArg _ ih

theorem layout_fetch (s : State) (e : Endpoint) :
    layout (s.fetch e).2.scopes = layout s.scopes :=
  layout_sameAs (s.fetch_sameAs e)

theorem layout_declare (n : PlacedNode) (outputs : List (String × Expr)) (s : State) :
    layout (declare n outputs s).2.scopes = layout s.scopes :=
  declare_induct (P := (layout ·.scopes = layout s.scopes)) rfl fun _ _ _ _ _ _ ht =>
    (layout_bind _ _ _).trans ht

theorem layout_bindOutputs (n : PlacedNode) (outputs : List (String × Expr)) (s : State) :
    layout (Walk.bindOutputs n outputs s).scopes = layout s.scopes :=
  Walk.bindOutputs_induct (P := (layout ·.scopes = layout s.scopes)) rfl fun _ _ _ _ _ ht =>
    (layout_bind _ _ _).trans ht

theorem layout_temporaries {x : Index} {e : Endpoint} {n : PlacedNode} {r : Recipe}
    {inputs : Inputs} {s s' : State} {code : Code}
    (h : temporaries x e n r inputs s = .ok (code, s')) : layout s'.scopes = layout s.scopes := by
  obtain ⟨em, t, -, hem, -, heq⟩ := temporaries_ok h
  rw [← emit_scopes hem]
  split at heq
  · cases heq
    rfl
  · rw [(Prod.mk.inj heq).2]
    exact layout_declare n em.outputs t

end Scopes

theorem Scopes.layout_eq_cons {sc : Scope} {ss ts : Scopes} (h : layout ts = layout (sc :: ss)) :
    ∃ sc' ss', ts = sc' :: ss' ∧ sc'.isThread = sc.isThread ∧ sc'.hoisted = sc.hoisted ∧
      layout ss' = layout ss := by
  obtain ⟨sc', ss', rfl, hsc, hss⟩ := List.map_eq_cons_iff.mp h
  exact ⟨sc', ss', rfl, congrArg Prod.fst hsc, congrArg Prod.snd hsc, hss⟩

theorem Displays.congr {indent : String} {text : Nat → List String} {anchors : List Anchor}
    {ss ss' : Scopes} {fs : List Opening} {openers writing : List Nat} {out : List String}
    (h : Displays indent text anchors ss fs openers writing out) (hl : layout ss' = layout ss) :
    Displays indent text anchors ss' fs openers writing out := by
  induction h generalizing ss' with
  | body shown =>
    obtain ⟨sc', ts, rfl, -, -, hl⟩ := layout_eq_cons hl
    obtain rfl : ts = [] := List.map_eq_nil_iff.mp hl
    exact .body shown
  | block isBlock begun anchor _ ih =>
    obtain ⟨sc', ts, rfl, hthread, -, hl⟩ := layout_eq_cons hl
    obtain ⟨sc₁', ts', rfl, -, hhoisted, -⟩ := layout_eq_cons hl
    refine .block (hthread.trans isBlock) begun anchor ?_
    rw [hhoisted, depth_of_layout hl]
    exact ih hl
  | thread isThread fresh shown anchor _ ih =>
    obtain ⟨sc', ts, rfl, hthread, -, hl⟩ := layout_eq_cons hl
    obtain ⟨sc₁', ts', rfl, -, hhoisted, -⟩ := layout_eq_cons hl
    refine .thread (hthread.trans isThread) fresh shown anchor ?_
    rw [hhoisted, depth_of_layout hl]
    exact ih hl

theorem Scopes.Grow.map_isThread {ss ss' : Scopes} (h : Grow ss ss') :
    ss'.map (·.isThread) = ss.map (·.isThread) := by
  induction h with
  | nil => rfl
  | cons h _ ih => rw [List.map_cons, List.map_cons, h.isThread, ih]

theorem Scopes.Grow.depth_eq {ss ss' : Scopes} (h : Grow ss ss') : depth ss' = depth ss :=
  depth_congr h.map_isThread

namespace Draft

variable {indent : String} {d : Draft} {ss ss' : Scopes} {fs : List Opening} {out : List String}

/-! ### Edits that write lines -/

namespace Presents

theorem congr (h : d.Presents indent ss fs out) (hl : layout ss' = layout ss) :
    d.Presents indent ss' fs out := ⟨h.sound, h.pages.congr hl⟩

/-- The openers of the open scopes are being written. -/
theorem fits (h : d.Presents indent ss fs out) : d.Fits ss.length := by
  refine ⟨h.pages.length, ?_⟩
  have hlive : ∀ {ops ws}, Displays indent d.text d.anchors ss fs ops ws out →
      ∀ k ∈ ops, k ∈ d.anchors.map (·.id) := by
    intro ops ws hp
    clear h
    induction hp with
    | body => simp
    | block _ _ anchor _ ih =>
      obtain ⟨a, ha, rfl, -⟩ := anchor
      exact List.forall_mem_cons.mpr ⟨List.mem_map_of_mem ha, ih⟩
    | thread _ _ _ anchor _ ih =>
      obtain ⟨a, ha, rfl, -⟩ := anchor
      exact List.forall_mem_cons.mpr ⟨List.mem_map_of_mem ha, ih⟩
  exact hlive h.pages

theorem writing_eq (h : d.Presents indent ss fs out) : ∃ ws, d.writing = d.page :: ws := by
  obtain ⟨k, ws, hw⟩ := List.exists_cons_of_ne_nil h.pages.writing_ne_nil
  exact ⟨ws, by rw [page, hw]; rfl⟩

theorem append (h : d.Presents indent ss fs out) (text : String) :
    (d.step (.append text)).Presents indent ss fs (out ++ [text]) := by
  refine ⟨h.sound.step _, ?_⟩
  obtain ⟨ws, hw⟩ := h.writing_eq
  have hp := h.pages
  have hwriting : (d.step (.append text)).writing = d.page :: ws := hw
  rw [hw, ← List.append_nil out] at hp
  rw [hwriting, ← List.append_nil (out ++ [text])]
  refine hp.insert (fun lead hlead => ?_) (fun j hj => ?_) fun a ha _ => ha
  · have htext : d.text d.page = lead := by simpa using hlead
    simp [Draft.text, step, apply, setPage, ← htext]
  · simp [Draft.text, step, apply, setPage, hj]

theorem appends (h : d.Presents indent ss fs out) (texts : List String) :
    (d.run (EditLog.appends texts)).Presents indent ss fs (out ++ texts) := by
  induction texts generalizing d out with
  | nil =>
    rw [List.append_nil]
    exact h
  | cons text texts ih =>
    have := ih (h.append text)
    rw [List.append_assoc] at this
    exact this

/-- Declarations go in front of the opener of the scope inside theirs. -/
theorem hoist {hid : Scopes} {sc : Scope} (h : d.Presents indent (hid ++ sc :: ss) fs out)
    (hne : hid ≠ []) (code : Code) :
    (d.step (.hoist ss.length (code.render indent (depth (sc :: ss))))).Presents indent
      (hid ++ { sc with hoisted := sc.hoisted ++ code } :: ss) fs out := by
  refine ⟨h.sound.step _, ?_⟩
  have hlevel : ss.length + 1 < (hid ++ sc :: ss).length := by
    have := List.length_pos_iff.mpr hne
    rw [List.length_append, List.length_cons]
    omega
  obtain ⟨b, hb, hopener⟩ := h.fits.opener? hlevel
  obtain ⟨k, hk, hfind⟩ := Option.bind_eq_some_iff.mp hopener
  have hid : b.id = k := by simpa using List.find?_some hfind
  have hp := (h.pages.hoist code h.sound.nodup hb hne (hid ▸ hk)).1
  generalize code.render indent (depth (sc :: ss)) = texts at hp ⊢
  have hstep : d.step (.hoist ss.length texts) =
      { d.splice b texts with moment := d.moment + 1 } := by rw [step, apply, hopener]
  have htext : (d.step (.hoist ss.length texts)).text = Displays.spliceText d.text b texts := by
    funext j
    rw [Draft.text, pages_hoist hopener, Displays.spliceText]
    split
    · rename_i hj
      subst hj
      simp [stamp, Draft.text, List.map_take, List.map_drop, Function.comp_def]
    · rfl
  rw [htext, hstep]
  exact hp

end Presents

end Draft

/-! ### Reads -/

namespace EditLog

variable {indent : String} {x : Index} {pass : Pass} {n : PlacedNode} {fs : List Opening}

/-- The lines that are appended at once. -/
def kept (collecting : Bool) (lines : List String) : List String :=
  if collecting then [] else lines

theorem kept_append (collecting : Bool) (as bs : List String) :
    kept collecting (as ++ bs) = kept collecting as ++ kept collecting bs := by
  cases collecting <;> rfl

/-- What a read that succeeds comes to: the inputs are resolved, the temporaries declared, and the
code made so far is kept or hoisted. -/
theorem conclude_ok {e : Endpoint} {r : Recipe} {s s' : State} {value : Option Expr} {code : Code}
    {resolved : Except Failure (Inputs × Code × State)}
    (h : conclude x pass e n r s resolved = .ok (value, code, s')) :
    ∃ inputs before t made t', resolved = .ok (inputs, before, t) ∧
      temporaries x e n r inputs t = .ok (made, t') ∧
      code = (s.raise (hiddenScopes x pass e n s) (before ++ made) t').1 ∧
      layout s'.scopes =
        layout (s.raise (hiddenScopes x pass e n s) (before ++ made) t').2.scopes := by
  unfold conclude at h
  obtain ⟨⟨inputs, before, t⟩, hres, h⟩ := bind_eq_ok.mp h
  obtain ⟨⟨em, t'⟩, hem, h⟩ := bind_eq_ok.mp h
  dsimp only at h
  split at h
  · cases h
  rename_i v hv
  have htemp : temporaries x e n r inputs t =
      .ok (if isInlined x n then (.done, t') else declare n em.outputs t') := by
    simp [temporaries, hem, hv, Bind.bind, Except.bind]
  split at h
  · rename_i hi
    cases h
    rw [if_pos hi] at htemp
    refine ⟨_, _, _, .done, _, hres, htemp, ?_, ?_⟩ <;> simp [hiddenScopes, hi]
  · rename_i hi
    cases h
    rw [if_neg hi] at htemp
    exact ⟨_, _, _, _, _, hres, htemp, rfl, layout_fetch _ _⟩

/-- The inputs of a node are resolved while the scopes `hid` are hidden. -/
theorem resolve_presents {collecting : Bool} {hid : Scopes}
    {read : Endpoint → State → Except Failure (Option Expr × Code × State)}
    {log : Endpoint → State → List Edit}
    (hdepth : ∀ {e s value code s'}, read e s = .ok (value, code, s') →
      depth s'.scopes = depth s.scopes)
    (hread : ∀ {e s value code s'}, read e s = .ok (value, code, s') → ∀ {d : Draft} {out},
      d.Presents indent (hid ++ s.scopes) fs out →
      (d.run (log e s)).Presents indent (hid ++ s'.scopes) fs
        (out ++ kept collecting (code.render indent (depth s.scopes)))) :
    ∀ (ts : List PortTemplate) {inputs inputs' : Inputs} {s s' : State} {code : Code},
      Evaluation.resolve x n read ts inputs s = .ok (inputs', code, s') → ∀ {d : Draft} {out},
      d.Presents indent (hid ++ s.scopes) fs out →
      (d.run (resolve x n read log ts s)).Presents indent (hid ++ s'.scopes) fs
        (out ++ kept collecting (code.render indent (depth s.scopes)))
  | [], _, _, _, _, _, h, d, out, hd => by
    cases h
    have hnil : kept collecting [] = [] := by cases collecting <;> rfl
    rw [Code.render, hnil, List.append_nil]
    exact hd
  | t :: ts, inputs, inputs', s, s', code, h, d, out, hd => by
    rw [resolve]
    by_cases hk : t.kind = .data
    case neg =>
      rw [resolve_skip hk] at h
      rw [if_pos hk]
      exact resolve_presents hdepth hread ts h hd
    rw [if_neg (not_not.mpr hk)]
    cases hsource : source? x n t with
    | none =>
      rw [resolve_literal hk hsource] at h
      obtain ⟨value, hv, h⟩ := bind_eq_ok.mp h
      simp only [hv, after_ok]
      exact resolve_presents hdepth hread ts h hd
    | some e =>
      rw [Evaluation.resolve, if_neg (not_not.mpr hk), hsource] at h
      obtain ⟨⟨value, before, s₁⟩, h₁, h⟩ := bind_eq_ok.mp h
      obtain ⟨⟨inputs₂, more, s₂⟩, h₂, h⟩ := bind_eq_ok.mp h
      cases h
      simp only [h₁, after_ok, Draft.run_append]
      have hrest := resolve_presents hdepth hread ts h₂ (hread h₁ hd)
      rw [hdepth h₁, List.append_assoc, ← kept_append, ← Code.render_append] at hrest
      exact hrest

theorem read_depth {fuel : Nat} {pending : List String} {e : Endpoint} {s s' : State}
    {value : Option Expr} {code : Code}
    (h : Evaluation.read x pass fuel pending e s = .ok (value, code, s')) :
    depth s'.scopes = depth s.scopes := ((growing x pass).read fuel h).1.depth_eq

/-- Code that was made while scopes were hidden goes in front of the opener of the outermost of
them. -/
theorem raise_presents {hid : Scopes} {hidden : Nat} {s t : State} {d : Draft} {out : List String}
    (code : Code) (h0 : hidden ≠ 0) (hle : hidden ≤ top s.scopes)
    (ht : t.scopes.map (·.isThread) = (s.lower hidden).scopes.map (·.isThread))
    (hd : d.Presents indent (hid ++ s.scopes.take hidden ++ t.scopes) fs out) :
    (d.step (.hoist (top (s.lower hidden).scopes)
        (code.render indent (depth (s.lower hidden).scopes)))).Presents indent
      (hid ++ (s.raise hidden code t).2.scopes) fs out := by
  have hlength : t.scopes.length = s.scopes.length - hidden := by
    simpa [State.lower] using congrArg List.length ht
  unfold top at hle
  obtain ⟨sc, ss, hsc⟩ : ∃ sc ss, t.scopes = sc :: ss :=
    List.exists_cons_of_length_pos (by omega)
  have htop : top (s.lower hidden).scopes = ss.length := by
    rw [hsc, List.length_cons] at hlength
    simp only [top, State.lower, List.length_drop]
    omega
  have hne : hid ++ s.scopes.take hidden ≠ [] := by
    intro hnil
    have := congrArg List.length hnil
    simp only [List.length_append, List.length_take, List.length_nil] at this
    omega
  rw [hsc] at hd
  rw [← depth_congr ht, hsc, htop]
  simpa [State.raise, h0, hsc, modifyTop] using hd.hoist hne code

/-- **The edits of a read show what it returns.**  The scopes `hid` are hidden; while code is
collected for a scope further out, nothing is appended. -/
theorem read_presents : ∀ (fuel : Nat) {pending : List String} {collecting : Bool} {e : Endpoint}
    {s s' : State} {value : Option Expr} {code : Code},
    Evaluation.read x pass fuel pending e s = .ok (value, code, s') →
      ∀ {hid : Scopes}, (collecting = false → hid = []) → ∀ {d : Draft} {out : List String},
        d.Presents indent (hid ++ s.scopes) fs out →
        (d.run (read indent x pass fuel pending collecting e s)).Presents indent
          (hid ++ s'.scopes) fs (out ++ kept collecting (code.render indent (depth s.scopes)))
  | fuel, pending, collecting, e, s, s', value, code, h, hid, hhid, d, out, hd => by
    have hnil : kept collecting [] = [] := by cases collecting <;> rfl
    rcases readsAtOnce_or_evaluates x pass pending e s with ⟨result, hat⟩ | ⟨n, r, hev⟩
    · obtain rfl := (hat.read_eq fuel).symm.trans h
      rw [read_of_atOnce hat]
      cases hat with
      | bound hn hl =>
        rw [note_scopes] at hl
        rw [Code.render, hnil, List.append_nil]
        exact hd.congr (by rw [layout_append, layout_append, layout_sameAs (lookup?_sameAs hl)])
    cases fuel with
    | zero =>
      rw [Evaluation.read] at h
      simp only [hev.node, hev.free, hev.data, hev.fresh, hev.recipe, Bool.false_eq_true,
        if_false] at h
      cases h
    | succ fuel =>
      rw [hev.read_succ] at h
      obtain ⟨inputs, before, t, made, t', hres, htemp, rfl, hlayout⟩ := conclude_ok h
      rw [read_of_evaluates hev]
      have hle := hiddenScopes_le x pass e n (note x pass n s)
      revert hres htemp hlayout hle
      generalize hiddenScopes x pass e n (note x pass n s) = hidden
      intro hres htemp hlayout hle
      simp only [evaluate, hres, htemp, after_ok, Draft.run_append]
      have hinside : hid ++ s.scopes =
          (hid ++ s.scopes.take hidden) ++ ((note x pass n s).lower hidden).scopes := by
        simp [State.lower]
      have hcollect : (collecting || hidden != 0) = false →
          hid ++ s.scopes.take hidden = [] := by
        intro hc
        obtain ⟨hc, h0⟩ : collecting = false ∧ hidden = 0 := by simpa using hc
        simp [hhid hc, h0]
      rw [hinside] at hd
      have hresolved := resolve_presents read_depth
        (fun hr => read_presents fuel hr hcollect) n.definition.inputs hres hd
      have hmade := hresolved.congr
        (show layout ((hid ++ s.scopes.take hidden) ++ t'.scopes) = _ by
          simp only [layout_append, layout_temporaries htemp])
      refine Draft.Presents.congr ?_
        (show layout (hid ++ s'.scopes) =
            layout (hid ++ ((note x pass n s).raise hidden (before ++ made) t').2.scopes) by
          simp only [layout_append, hlayout])
      by_cases h0 : hidden = 0
      · -- the temporaries are declared in the current scope
        subst h0
        simp only [ne_eq, not_true, if_false, State.raise_zero, State.lower_zero, note_scopes,
          bne_self_eq_false, Bool.or_false, List.take_zero, List.append_nil] at hmade ⊢
        cases collecting with
        | true => exact hmade
        | false => simpa [kept] using hmade.appends _
      · -- they are hoisted, with all that was collected for them
        have hthread := map_isThread_of_layout (layout_temporaries htemp)
        have hgrow := ((growing x pass).resolved ⟨fuel, hres⟩).1
        have hkept : ∀ lines, kept (collecting || hidden != 0) lines = [] := by
          simp [kept, h0]
        rw [hkept, List.append_nil, ← note_scopes x pass n s] at hmade
        have hraised := raise_presents (before ++ made) h0 hle
          (hthread.trans hgrow.map_isThread) hmade
        simpa [h0, State.raise, Code.render, hnil] using hraised

/-- Entering a node appends the declarations its inputs need. -/
theorem enter_presents {s s' : State} {filling : Walk.Filling} {before : Code} {d : Draft}
    {out : List String} (h : Walk.enter x pass n s = .ok (filling, before, s'))
    (hd : d.Presents indent s.scopes fs out) :
    (d.run (enter indent x pass n s)).Presents indent s'.scopes fs
      (out ++ before.render indent (depth s.scopes)) := by
  obtain ⟨r, s₁, em, s₂, hr, hin, hem, -, rfl⟩ := Walk.enter_ok h
  have hresolved := resolve_presents read_depth
    (fun hread => read_presents x.placed.length hread fun (_ : false = false) => rfl)
    n.definition.inputs hin hd
  rw [enter, hr]
  refine Draft.Presents.congr hresolved ?_
  rw [layout_bindOutputs, emit_scopes hem]
  rfl

end EditLog

end VisualScript
