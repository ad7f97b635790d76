import VisualScript.Proofs.Declarations
import VisualScript.Proofs.Hoisting

/-!
# Proofs — Passes

The two passes over an entry side by side.  At every point of the flow, what the recording pass has
bound is legible from what the placing pass has bound at the same level or further out
(`Scopes.Lockstep`).  So whatever the recording pass reads can be read in the placing pass, and the
placing pass comes to the end of every flow that the recording pass comes to the end of
(`EntryFunction.placing_of_recording`).
-/

namespace VisualScript

open Evaluation Scopes

theorem Scopes.Grow.drop {ss ss' : Scopes} (h : Grow ss ss') : ∀ k, Grow (ss.drop k) (ss'.drop k) := by
  induction h with
  | nil => intro k; simpa using Grow.nil
  | cons h t ih =>
    intro k
    cases k with
    | zero => exact .cons h t
    | succ k => exact ih k

theorem Scopes.Grow.length_eq {ss ss' : Scopes} (h : Grow ss ss') : ss'.length = ss.length := by
  induction h with
  | nil => rfl
  | cons _ _ ih => rw [List.length_cons, List.length_cons, ih]

/-- Whatever is bound in a scope of the first pass is legible at the same level of the second. -/
structure Scopes.Lockstep (x : Index) (ss ts : Scopes) : Prop where
  ne_nil  : ss ≠ []
  length  : ts.length = ss.length
  legible : ∀ k slot, Binds (ss.drop k) slot → Legible x (Binds (ts.drop k)) slot true

namespace Scopes.Lockstep

variable {x : Index} {ss ss' ts ts' : Scopes}

theorem refl (hne : ss ≠ []) : Lockstep x ss ss := ⟨hne, rfl, fun _ _ h => .bound h⟩

theorem ne_nil' (h : Lockstep x ss ts) : ts ≠ [] := by
  have := List.length_pos_iff.mpr h.ne_nil
  exact List.length_pos_iff.mp (h.length ▸ this)

/-- The first pass binds what is legible. -/
theorem left (h : Lockstep x ss ts) (hg : Grow ss ss')
    (hs : ∀ k slot, Binds (ss'.drop k) slot → Legible x (Binds (ss.drop k)) slot true) :
    Lockstep x ss' ts :=
  ⟨hg.ne_nil h.ne_nil, h.length.trans hg.length_eq.symm,
    fun k slot hb => (hs k slot hb).trans (h.legible k)⟩

/-- The second pass takes nothing back. -/
theorem right (h : Lockstep x ss ts) (hg : Grow ts ts') : Lockstep x ss ts' :=
  ⟨h.ne_nil, hg.length_eq.trans h.length, fun k slot hb =>
    (h.legible k slot hb).mono fun _ => (hg.drop k).binds⟩

theorem push (h : Lockstep x ss ts) {a b : Scope} (ha : a.bindings = []) :
    Lockstep x (a :: ss) (b :: ts) := by
  refine ⟨by simp, by simp [h.length], fun k slot hb => ?_⟩
  cases k with
  | zero =>
    obtain ⟨sc, hm, value, hv⟩ := hb
    rcases List.mem_cons.mp hm with rfl | hm
    · rw [ha] at hv
      cases hv
    · exact (h.legible 0 slot ⟨sc, hm, value, hv⟩).mono fun _ ⟨sc, hm, hv⟩ =>
        ⟨sc, .tail _ hm, hv⟩
  | succ k => exact h.legible k slot hb

theorem tail (h : Lockstep x ss ts) (hne : ss.tail ≠ []) : Lockstep x ss.tail ts.tail := by
  refine ⟨hne, by simp [h.length], fun k slot hb => ?_⟩
  rw [← List.drop_one, List.drop_drop] at hb ⊢
  exact h.legible _ slot hb

theorem modifyTop (h : Lockstep x ss ts) {f g : Scope → Scope}
    (hf : ∀ sc, (f sc).bindings = sc.bindings) (hg : ∀ sc, (g sc).bindings = sc.bindings) :
    Lockstep x (modifyTop f ss) (modifyTop g ts) := by
  have hlen : ∀ (f : Scope → Scope) (ss : Scopes), (Scopes.modifyTop f ss).length = ss.length :=
    fun f ss => by cases ss <;> rfl
  have hbinds : ∀ (f : Scope → Scope) (ss : Scopes), (∀ sc, (f sc).bindings = sc.bindings) →
      ∀ k slot, Binds ((Scopes.modifyTop f ss).drop k) slot ↔ Binds (ss.drop k) slot := by
    intro f ss hf k slot
    cases k with
    | zero =>
      cases ss with
      | nil => rfl
      | cons sc ss => simp [Scopes.modifyTop, Binds, hf]
    | succ k => rw [drop_modifyTop]
  refine ⟨?_, by rw [hlen, hlen, h.length], fun k slot hb => ?_⟩
  · rw [← List.length_pos_iff, hlen]
    exact List.length_pos_iff.mpr h.ne_nil
  · exact (h.legible k slot ((hbinds f ss hf k slot).mp hb)).mono fun e he =>
      (hbinds g ts hg k e).mpr he

end Scopes.Lockstep

namespace Walk

variable {x : Index} {s t : State}

theorem binds_drop_bindOutputs {n : PlacedNode} {slot : Endpoint} {k : Nat}
    {outputs : List (String × Expr)} :
    Binds ((bindOutputs n outputs s).scopes.drop k) slot →
      k = 0 ∧ n.Holds (outputs.map Prod.fst) slot ∨ Binds (s.scopes.drop k) slot :=
  bindOutputs_induct (P := fun t => Binds (t.scopes.drop k) slot →
      k = 0 ∧ n.Holds (outputs.map Prod.fst) slot ∨ Binds (s.scopes.drop k) slot)
    .inr fun o ho p hp _ ht h => (binds_drop_bind h).elim
      (fun hs => .inl ⟨hs.1, o.1, List.mem_map_of_mem ho, p, hp, hs.2⟩) ht

theorem binds_bindOutputs_of_holds {n : PlacedNode} {slot : Endpoint} :
    ∀ {outputs : List (String × Expr)} {s : State}, s.scopes ≠ [] →
      n.Holds (outputs.map Prod.fst) slot → Binds (bindOutputs n outputs s).scopes slot
  | [], _, _, ⟨_, hm, _⟩ => by cases hm
  | (name, value) :: outputs, s, hne, ⟨name', hm, p, hp, hs⟩ => by
    obtain ⟨sc, ss, hss⟩ := List.exists_cons_of_ne_nil hne
    unfold bindOutputs
    rw [List.foldl_cons]
    rcases List.mem_cons.mp hm with rfl | hm
    · refine (bindOutputs_grow n outputs _).binds ?_
      simp only [hp, hs, State.bind, hss, Scopes.bind, modifyTop]
      exact ⟨_, .head _, _, .head _⟩
    · refine binds_bindOutputs_of_holds ?_ ⟨name', hm, p, hp, hs⟩
      dsimp only
      split
      · simp [State.bind, hss, Scopes.bind, modifyTop]
      · exact hne

/-- Both passes bind the same slots for the outputs of a node. -/
theorem bindOutputs_lockstep (h : Lockstep x s.scopes t.scopes) (n : PlacedNode)
    {outs outs' : List (String × Expr)} (hnames : outs.map Prod.fst = outs'.map Prod.fst) :
    Lockstep x (bindOutputs n outs s).scopes (bindOutputs n outs' t).scopes := by
  have hgrow := bindOutputs_grow n outs s
  have hgrow' := bindOutputs_grow n outs' t
  refine ⟨hgrow.ne_nil h.ne_nil, by rw [hgrow'.length_eq, h.length, hgrow.length_eq],
    fun k slot hb => ?_⟩
  rcases binds_drop_bindOutputs hb with ⟨rfl, hs⟩ | hb
  · exact .bound (binds_bindOutputs_of_holds h.ne_nil' (hnames ▸ hs))
  · exact (h.legible k slot hb).mono fun _ => (hgrow'.drop k).binds

theorem openBlock_lockstep (h : Lockstep x s.scopes t.scopes) (n : PlacedNode) (key : BlockKey)
    (isThread : Bool) (bindings : List (String × Nat)) (vars vars' : List String) :
    Lockstep x (openBlock n key isThread bindings vars s).scopes
      (openBlock n key isThread bindings vars' t).scopes := by
  unfold openBlock
  refine bindOutputs_lockstep (s := { s with scopes := _ }) (t := { t with scopes := _ })
    (h.push rfl) n ?_
  simp only [List.map_map]
  rfl

theorem closeBlock_scopes (s : State) : (closeBlock s).2.scopes = s.scopes.tail := by
  unfold closeBlock
  cases hs : s.scopes <;> simp [hs]

theorem setHoisted_lockstep (h : Lockstep x s.scopes t.scopes) (c d : Code) :
    Lockstep x (setHoisted s c).scopes (setHoisted t d).scopes :=
  h.modifyTop (fun _ => rfl) fun _ => rfl

variable {catalog : Catalog} {nodes : List Node} {connections : List Connection}

/-- A node that the recording pass enters can be entered in the placing pass. -/
theorem enter_lockstep (hb : Index.Built catalog nodes connections x)
    (reads : List (String × Path)) {n : PlacedNode} {s' : State} {filling : Filling} {code : Code}
    (henter : enter x .recording n s = .ok (filling, code, s'))
    (h : Lockstep x s.scopes t.scopes) :
    ∃ filling' code' t', enter x (.placing reads) n t = .ok (filling', code', t') ∧
      Lockstep x s'.scopes t'.scopes := by
  obtain ⟨r, s₁, em, s₂, hr, hin, hem, -, rfl⟩ := enter_ok henter
  obtain ⟨hgathered, hslots⟩ := (legible_of_read hb).inputs hin
  obtain ⟨valued, hs, hle⟩ := (hgathered.trans (h.legible 0)).valued
  obtain ⟨inputs, code', t₁, hin', hle'⟩ :=
    inputs_of_legible hb reads h.ne_nil' hs hgathered.literals
  obtain ⟨em', t₂, hem'⟩ := ((Outline.Supplied.of_emit hem).mono (hle.trans hle')).emit t₁
  have hl : Lockstep x s₂.scopes t₂.scopes := by
    rw [emit_scopes hem, emit_scopes hem']
    exact (h.left ((growing x .recording).inputs hin).1 hslots).right
      ((growing x (.placing reads)).inputs hin').1
  refine ⟨⟨inputs, em'.vars⟩, code', bindOutputs n em'.outputs t₂, ?_, ?_⟩
  · unfold enter
    simp only [hr]
    exact bind_eq_ok.mpr ⟨_, hin', bind_eq_ok.mpr ⟨_, hem', rfl⟩⟩
  · obtain ⟨-, -, hout, -⟩ := emit_ok hem
    obtain ⟨-, -, hout', -⟩ := emit_ok hem'
    exact bindOutputs_lockstep hl n (by rw [outputs_fst hout, outputs_fst hout'])

/-- A block that the recording pass opens and closes leaves the passes in lockstep. -/
theorem closeBlock_lockstep {n : PlacedNode} {key : BlockKey} {isThread : Bool}
    {bindings : List (String × Nat)} {vars : List String} {s₁ t₁ : State} (hne : s.scopes ≠ [])
    (hgrow : Grow (openBlock n key isThread bindings vars s).scopes s₁.scopes)
    (h : Lockstep x s₁.scopes t₁.scopes) :
    Lockstep x (closeBlock s₁).2.scopes (closeBlock t₁).2.scopes := by
  have := (closeBlock_grow hgrow).ne_nil hne
  rw [closeBlock_scopes] at this ⊢
  rw [closeBlock_scopes]
  exact h.tail this

/-- A thread item without a connection leaves the scopes as they are. -/
theorem parts_unconnected {pass : Pass} {n : PlacedNode} {filling : Filling} {rest : Parts}
    {after : Code} {s' : State} (port name : String)
    (h : parts x pass n filling rest s = .ok (after, s')) :
    ∃ code, parts x pass n filling (.thread port name false .done rest) s = .ok (code, s') := by
  have hchain (s : State) : chain x pass .done s = .ok (.done, s) := by rw [chain]
  rw [parts.eq_def]
  dsimp only
  split
  · exact ⟨_, bind_eq_ok.mpr ⟨_, h, rfl⟩⟩
  · exact ⟨_, bind_eq_ok.mpr ⟨_, hchain _, bind_eq_ok.mpr ⟨(after, s'), h, rfl⟩⟩⟩

/-- **The placing pass follows the recording pass.** -/
theorem lockstep (hb : Index.Built catalog nodes connections x) (reads : List (String × Path)) :
    Walking x .recording
      (fun c s _ s' => c.Idle → ∀ t, Lockstep x s.scopes t.scopes →
        ∃ code' t', chain x (.placing reads) c t = .ok (code', t') ∧
          Lockstep x s'.scopes t'.scopes)
      (fun n _ own s _ s' => own.Idle → ∀ filling t, Lockstep x s.scopes t.scopes →
        ∃ code' t', parts x (.placing reads) n filling own t = .ok (code', t') ∧
          Lockstep x s'.scopes t'.scopes) := by
  have hid : ∀ {id n}, x.node? id = some n → n.node.id = id := hb.node_id
  constructor
  case finish =>
    intro s _ t h
    exact ⟨.done, t, by rw [chain], h⟩
  case step =>
    intro id own rest s n filling before s₁ code s₂ after s₃ hn henter _ _ ihown ihrest hi t h
    obtain ⟨filling', before', t₁, henter', h₁⟩ := enter_lockstep hb reads henter h
    obtain ⟨code', t₂, hown', h₂⟩ := ihown hi.1 filling' _ (setHoisted_lockstep h₁ .done .done)
    obtain ⟨after', t₃, hrest', h₃⟩ :=
      ihrest hi.2 _ (setHoisted_lockstep h₂ (hoisted s₁) (hoisted t₁))
    refine ⟨before' ++ hoisted t₂ ++ .mark id filling'.inputs filling'.vars (code' ++ after'), t₃,
      ?_, h₃⟩
    rw [chain, hn]
    exact bind_eq_ok.mpr ⟨_, henter', bind_eq_ok.mpr ⟨_, hown', bind_eq_ok.mpr ⟨_, hrest', rfl⟩⟩⟩
  case nil =>
    intro n filling s _ filling' t h
    exact ⟨.done, t, by rw [parts], h⟩
  case line =>
    intro n filling text rest s after s' ih hi filling' t h
    obtain ⟨after', t', hrest', h'⟩ := ih hi filling' t h
    refine ⟨.line (text.fill filling'.inputs filling'.vars) after', t', ?_, h'⟩
    rw [parts]
    exact bind_eq_ok.mpr ⟨_, hrest', rfl⟩
  case follow =>
    intro n filling body rest s code s₁ after s₂ _ ihbody ih hi filling' t h
    obtain ⟨code', t₁, hbody', h₁⟩ := ihbody hi.1 t h
    obtain ⟨after', t₂, hrest', h₂⟩ := ih hi.2 filling' t₁ h₁
    refine ⟨code' ++ after', t₂, ?_, h₂⟩
    rw [parts]
    exact bind_eq_ok.mpr ⟨_, hbody', bind_eq_ok.mpr ⟨_, hrest', rfl⟩⟩
  case block =>
    intro n filling port bindings tail body rest s code s₁ after s₂ hbody _ ihbody ih hi filling' t h
    obtain ⟨code', t₁, hbody', h₁⟩ := ihbody hi.1 _
      (openBlock_lockstep h n ⟨n.node.id, port⟩ false bindings filling.vars filling'.vars)
    have hgrow := ((writing x .recording hid).chain body hbody).1.1
    obtain ⟨after', t₂, hrest', h₂⟩ := ih hi.2 filling' _ (closeBlock_lockstep h.ne_nil hgrow h₁)
    refine ⟨.block ⟨n.node.id, port⟩ (code' ++ .ofLines tail) after', t₂, ?_, h₂⟩
    rw [parts]
    exact bind_eq_ok.mpr ⟨_, hbody', bind_eq_ok.mpr ⟨_, hrest', rfl⟩⟩
  case named =>
    intro n filling port name body rest s e after s' _ ih hi filling' t h
    obtain ⟨after', t', hrest', h'⟩ := ih hi.2.2 filling' t h
    obtain ⟨code', hw⟩ := parts_unconnected port name hrest'
    rw [hi.1 rfl]
    exact ⟨code', t', hw, h'⟩
  case thread =>
    intro n filling port name isConnected body rest s code s₁ after s₂ hbody _ ihbody ih hi filling'
      t h
    cases isConnected with
    | true =>
      obtain ⟨code', t₁, hbody', h₁⟩ := ihbody hi.2.1 _
        (openBlock_lockstep h n ⟨n.node.id, port⟩ true [] filling.vars filling'.vars)
      have hgrow := ((writing x .recording hid).chain body hbody).1.1
      obtain ⟨after', t₂, hrest', h₂⟩ :=
        ih hi.2.2 filling' _ (closeBlock_lockstep h.ne_nil hgrow h₁)
      refine ⟨.thread ⟨n.node.id, port⟩ name (closeBlock t₁).1 code' after', t₂, ?_, h₂⟩
      rw [parts.eq_def]
      exact bind_eq_ok.mpr ⟨_, hbody', bind_eq_ok.mpr ⟨_, hrest', rfl⟩⟩
    | false =>
      -- nothing is walked in the body, so the state is the one before the block was opened
      obtain rfl := hi.1 rfl
      rw [chain] at hbody
      cases hbody
      obtain ⟨after', t', hrest', h'⟩ := ih hi.2.2 filling' t h
      obtain ⟨code', hw⟩ := parts_unconnected port name hrest'
      exact ⟨code', t', hw, h'⟩

end Walk

/-! ### The two passes over an entry -/

namespace EntryFunction

variable {catalog : Catalog} {nodes : List Node} {connections : List Connection} {x : Index}
  {n : PlacedNode} {flow : Parts}

/-- A pass that comes to the end of a flow has gone through its nodes, block by block. -/
theorem visits_of_walk (hb : Index.Built catalog nodes connections x) (hi : flow.Idle)
    {pass : Pass} {body : Code} {s : State} (hw : walkFlow x pass n flow = .ok (body, s)) :
    body.visits [] = flow.visits [] n.node.id :=
  ((writing x pass hb.node_id).parts flow hw).2.visits hi

/-- The placing pass comes to the end of every flow that the recording pass comes to the end of. -/
theorem placing_of_recording (hb : Index.Built catalog nodes connections x) (hi : flow.Idle)
    {first : Code} {recorded : State} (hw : walkFlow x .recording n flow = .ok (first, recorded))
    (reads : List (String × Path)) :
    ∃ body last, walkFlow x (.placing reads) n flow = .ok (body, last) := by
  have hne : (initial n).scopes ≠ [] := by simp [initial_scopes]
  obtain ⟨body, last, hw', -⟩ := (Walk.lockstep hb reads).parts flow hw hi ⟨[], []⟩ (initial n)
    (.refl hne)
  exact ⟨body, last, hw'⟩

/-- Making a function fails where its recording pass fails, and nowhere else. -/
theorem make_error_iff (hb : Index.Built catalog nodes connections x) (hi : flow.Idle)
    {moduleId : String} {f : Failure} :
    make x moduleId n flow = .error f ↔ walk x .recording n flow = .error f := by
  cases hw : walk x .recording n flow with
  | error f' =>
    unfold make
    rw [hw]
    constructor <;> (intro h; cases h; rfl)
  | ok first =>
    obtain ⟨hflow, hname⟩ := walk_ok_iff.mp hw
    obtain ⟨body, last, hw'⟩ := placing_of_recording hb hi hflow first.2.reads
    have hok : make x moduleId n flow = .ok ⟨n, nameOf moduleId n, (paramsOf n).map Prod.snd, body⟩ :=
      bind_eq_ok.mpr ⟨first, hw, bind_eq_ok.mpr ⟨(body, last), walk_ok_iff.mpr ⟨hw', hname⟩, rfl⟩⟩
    simp [hok]

end EntryFunction

end VisualScript
