import VisualScript.Proofs.Layout
import VisualScript.Proofs.Scopes
import VisualScript.Proofs.Walking

/-!
# Proofs — Homes

Where values are bound and where temporaries are declared.  `State.Homed H D p` says of a state
at the block path `p` that every slot is bound in a scope `H` allows for it, every declaration that
waits in front of a node stands where `D` allows it, and every noted read satisfies `T`.  What a
pass has to promise about the inputs of one node (`Keeping`) then holds along the whole flow
(`Keeping.chain`, `Keeping.parts`).
-/

namespace VisualScript

variable {D H : Endpoint → Path → Prop} {T : String → Path → Prop}

/-- Every temporary of a body at a path is declared where `D` allows it. -/
def Code.Declares (D : Endpoint → Path → Prop) (path : Path) (c : Code) : Prop :=
  ∀ q slot, (q, slot) ∈ c.declarations path → D slot q

namespace Code

variable {path : Path}

@[simp] theorem declares_done : Declares D path done := by simp [Declares, declarations]

@[simp] theorem declares_append {c d : Code} :
    (c ++ d).Declares D path ↔ c.Declares D path ∧ d.Declares D path := by
  simp only [Declares, declarations_append, List.mem_append]
  exact ⟨fun h => ⟨fun q s hs => h q s (.inl hs), fun q s hs => h q s (.inr hs)⟩,
    fun h q s hs => hs.elim (h.1 q s) (h.2 q s)⟩

@[simp] theorem declares_ofLines (ls : List String) : (ofLines ls).Declares D path := by
  simp [Declares]

theorem declares_block {k : BlockKey} {body rest : Code} :
    (block k body rest).Declares D path ↔
      body.Declares D (path ++ [k]) ∧ rest.Declares D path := by
  simp only [Declares, declarations, List.mem_append]
  exact ⟨fun h => ⟨fun q s hs => h q s (.inl hs), fun q s hs => h q s (.inr hs)⟩,
    fun h q s hs => hs.elim (h.1 q s) (h.2 q s)⟩

end Code

/-- The slots of a scope at the path `q` are bound there, and what waits in front of its node is
declared there. -/
structure Scope.Homed (H D : Endpoint → Path → Prop) (q : Path) (sc : Scope) : Prop where
  bound   : ∀ slot value, (slot, value) ∈ sc.bindings → H slot q
  hoisted : sc.hoisted.Declares D q

theorem Scope.Homed.sameAs (q : Path) (a b : Scope) (h : a.SameAs b) (ha : a.Homed H D q) :
    b.Homed H D q :=
  ⟨by rw [← h.bindings]; exact ha.bound, by rw [← h.hoisted]; exact ha.hoisted⟩

structure State.Homed (H D : Endpoint → Path → Prop) (p : Path) (s : State) : Prop where
  shaped : Scopes.Shaped s.scopes
  path   : Scopes.path s.scopes = p
  scopes : Scopes.All (Scope.Homed H D) s.scopes

namespace State.Homed

variable {n : PlacedNode} {hidden : Nat} {code : Code} {key : BlockKey} {p : Path} {s t : State}

theorem sameAs (h : s.Homed H D p) (hs : List.Forall₂ Scope.SameAs s.scopes t.scopes) :
    t.Homed H D p :=
  ⟨h.shaped.sameAs hs, (Scopes.path_sameAs hs).trans h.path, h.scopes.sameAs Scope.Homed.sameAs hs⟩

theorem of_scopes (h : s.Homed H D p) (hs : t.scopes = s.scopes) : t.Homed H D p :=
  h.sameAs (hs ▸ List.forall₂_same.mpr fun a _ => .refl a)

theorem fetch (h : s.Homed H D p) (slot : Endpoint) : (s.fetch slot).2.Homed H D p :=
  h.sameAs (s.fetch_sameAs slot)

/-- A change of the innermost scope that keeps its key. -/
theorem modifyTop (h : s.Homed H D p) {f : Scope → Scope} (hk : ∀ sc, (f sc).key = sc.key)
    (hf : ∀ sc, sc.Homed H D p → (f sc).Homed H D p) :
    ({ s with scopes := Scopes.modifyTop f s.scopes } : State).Homed H D p := by
  obtain ⟨hshape, hpath, hall⟩ := h
  cases hss : s.scopes with
  | nil => exact absurd hss hshape.ne_nil
  | cons sc ss =>
    rw [hss] at hshape hpath hall
    have hpath' : Scopes.path (f sc :: ss) = p := by
      rw [Scopes.path_cons, hk, ← Scopes.path_cons, hpath]
    refine ⟨?_, hpath', ⟨?_, hall.2⟩⟩
    · cases hshape with
      | body hb => exact .body ((hk sc).trans hb)
      | block hb rest => exact .block ((hk sc).trans hb) rest
    · rw [hpath']
      exact hf sc (hpath ▸ hall.1)

theorem bind (h : s.Homed H D p) {slot : Endpoint} {value : Expr} (hs : H slot p) :
    (s.bind slot value).Homed H D p := by
  refine h.modifyTop (fun _ => rfl) fun sc hsc => ⟨fun slot' value' hm => ?_, hsc.hoisted⟩
  rcases List.mem_cons.mp hm with hm | hm
  · cases hm
    exact hs
  · exact hsc.bound slot' value' hm

theorem bindOutputs {outputs : List (String × Expr)} (h : s.Homed H D p)
    (ho : ∀ name value port, (name, value) ∈ outputs → n.output? name = some port →
      H ⟨n.node.id, port.id⟩ p) : (Walk.bindOutputs n outputs s).Homed H D p :=
  Walk.bindOutputs_induct (P := (·.Homed H D p)) h fun o hm port hp _ ht =>
    ht.bind (ho o.1 o.2 port hm hp)

theorem declare : ∀ {outputs : List (String × Expr)} {s : State},
    s.Homed H D p →
    (∀ name value port, (name, value) ∈ outputs → n.output? name = some port →
      H ⟨n.node.id, port.id⟩ p ∧ D ⟨n.node.id, port.id⟩ p) →
    (Evaluation.declare n outputs s).2.Homed H D p ∧
      (Evaluation.declare n outputs s).1.Declares D p
  | [], _, h, _ => ⟨h, Code.declares_done⟩
  | (name, value) :: outputs, s, h, ho => by
    rw [Evaluation.declare]
    split
    · exact declare h fun a b c hm => ho a b c (.tail _ hm)
    · rename_i port hp
      obtain ⟨hH, hD⟩ := ho name value port (.head _) hp
      obtain ⟨h₁, h₂⟩ := declare ((h.of_scopes (t := { s with counter := s.counter + 1 }) rfl).bind hH)
        fun a b c hm => ho a b c (.tail _ hm)
      refine ⟨h₁, fun q slot hm => ?_⟩
      rcases List.mem_cons.mp hm with hm | hm
      · cases hm
        exact hD
      · exact h₂ q slot hm

/-! ### Hiding scopes -/

theorem lower (h : s.Homed H D p) (hle : hidden ≤ Scopes.top s.scopes) :
    (s.lower hidden).Homed H D (p.take (Scopes.top s.scopes - hidden)) := by
  obtain ⟨h₁, h₂⟩ := h.shaped.drop hle
  exact ⟨h₁, by rw [← h.path]; exact h₂, h.scopes.drop hidden⟩

theorem raise (h : s.Homed H D p) (hle : hidden ≤ Scopes.top s.scopes) {q : Path}
    (hq : q = p.take (Scopes.top s.scopes - hidden)) (ht : t.Homed H D q) (hc : code.Declares D q) :
    (s.raise hidden code t).2.Homed H D p ∧ (s.raise hidden code t).1.Declares D p := by
  unfold State.raise
  split
  · rename_i h0
    have : q = p := by
      rw [hq, h0, Nat.sub_zero, ← h.shaped.length_path, h.path, List.take_length]
    subst this
    exact ⟨ht, hc⟩
  · have hmod := ht.modifyTop (f := fun sc => { sc with hoisted := sc.hoisted ++ code })
      (fun _ => rfl) fun sc hsc => ⟨hsc.bound, Code.declares_append.mpr ⟨hsc.hoisted, hc⟩⟩
    have hlow : q = Scopes.path (s.scopes.drop hidden) := by
      rw [hq, (h.shaped.drop hle).2, h.path]
    have hpath := hmod.path.trans hlow
    exact ⟨⟨h.shaped.take_append hmod.shaped hle, (Scopes.path_take_append hpath).trans h.path,
      h.scopes.take_append hmod.scopes hpath⟩, Code.declares_done⟩

/-! ### Nodes and blocks -/

theorem setHoisted (h : s.Homed H D p) (hc : code.Declares D p) :
    (Walk.setHoisted s code).Homed H D p :=
  h.modifyTop (fun _ => rfl) fun _ hsc => ⟨hsc.bound, hc⟩

theorem hoisted (h : s.Homed H D p) : (Walk.hoisted s).Declares D p := by
  obtain ⟨-, hpath, hall⟩ := h
  unfold Walk.hoisted
  split
  · exact Code.declares_done
  · rename_i sc ss hss
    rw [hss] at hpath hall
    exact hpath ▸ hall.1.hoisted

theorem openBlock (h : s.Homed H D p) {isThread : Bool} {bindings : List (String × Nat)}
    {vars : List String}
    (hb : ∀ name i port, (name, i) ∈ bindings → n.output? name = some port →
      H ⟨n.node.id, port.id⟩ (p ++ [key])) :
    (Walk.openBlock n key isThread bindings vars s).Homed H D (p ++ [key]) := by
  refine bindOutputs ⟨.block rfl h.shaped, ?_, ⟨⟨?_, Code.declares_done⟩, h.scopes⟩⟩ ?_
  · rw [Scopes.path_cons_some _ rfl, h.path]
  · intro slot value hm
    cases hm
  · intro name value port hm hp
    obtain ⟨⟨name', i⟩, hb', he⟩ := List.mem_map.mp hm
    cases he
    exact hb name i port hb' hp

theorem closeBlock (h : s.Homed H D (p ++ [key])) : (Walk.closeBlock s).2.Homed H D p := by
  obtain ⟨hshape, hpath, hall⟩ := h
  unfold Walk.closeBlock
  split
  · rename_i hss
    exact absurd hss hshape.ne_nil
  · rename_i sc ss hss
    rw [hss] at hshape hpath hall
    cases hshape with
    | body hb => simp [Scopes.path, hb] at hpath
    | block hb rest =>
      rw [Scopes.path_cons_some _ hb] at hpath
      obtain ⟨rfl, -⟩ := List.append_inj' hpath rfl
      exact ⟨rest, rfl, hall.2⟩

end State.Homed

/-! ### Along a flow -/

namespace Walk

@[simp] theorem setHoisted_reads (s : State) (code : Code) : (setHoisted s code).reads = s.reads :=
  rfl

@[simp] theorem bindOutputs_reads (n : PlacedNode) (outputs : List (String × Expr)) (s : State) :
    (bindOutputs n outputs s).reads = s.reads :=
  bindOutputs_induct (P := (·.reads = s.reads)) rfl fun _ _ _ _ _ h => h

@[simp] theorem openBlock_reads (n : PlacedNode) (key : BlockKey) (isThread : Bool)
    (bindings : List (String × Nat)) (vars : List String) (s : State) :
    (openBlock n key isThread bindings vars s).reads = s.reads := bindOutputs_reads ..

@[simp] theorem closeBlock_reads (s : State) : (closeBlock s).2.reads = s.reads := by
  unfold closeBlock
  split <;> rfl

end Walk

/-- Every read that is noted on the way satisfies `T`. -/
def Noted (T : String → Path → Prop) (before after : List (String × Path)) : Prop :=
  ∀ id q, (id, q) ∈ after → (id, q) ∈ before ∨ T id q

theorem Noted.refl (reads : List (String × Path)) :
    Noted T reads reads := fun _ _ => .inl

theorem Noted.trans {a b c : List (String × Path)} (h₁ : Noted T a b) (h₂ : Noted T b c) :
    Noted T a c := fun id q h => (h₂ id q h).elim (h₁ id q) .inr

/-- What a pass promises about the nodes `V` of a flow: when the inputs of a node are resolved, the
state stays at home, the reads that are noted satisfy `T`, and `S` is known of the node.  `F` is
asked of the reads at the end of the pass. -/
structure Keeping (x : Index) (pass : Pass) (H D : Endpoint → Path → Prop)
    (T : String → Path → Prop) (F : List (String × Path) → Prop) (V S : Path → String → Prop) :
    Prop where
  node_id : ∀ {id n}, x.node? id = some n → n.node.id = id
  final : ∀ {n s values code s'}, Evaluation.inputs x pass n s = .ok (values, code, s') →
    F s'.reads → F s.reads
  inputs : ∀ {p n s values code s'}, V p n.node.id → x.node? n.node.id = some n →
    Evaluation.inputs x pass n s = .ok (values, code, s') → F s'.reads → s.Homed H D p →
      s'.Homed H D p ∧ code.Declares D p ∧ Noted T s.reads s'.reads ∧ S p n.node.id
  outer : ∀ {p id n r}, V p id → x.node? id = some n → n.hasExec = true →
    Recipe.ofType? n.node.nodeType = some r → r.bindsInside = false → ∀ port, H ⟨id, port⟩ p
  inner : ∀ {p id n r}, V p id → x.node? id = some n → n.hasExec = true →
    Recipe.ofType? n.node.nodeType = some r → r.bindsInside = true →
      ∀ port, H ⟨id, port⟩ (p ++ [⟨id, "body"⟩])

namespace Keeping

variable {x : Index} {pass : Pass} {F : List (String × Path) → Prop} {V S : Path → String → Prop}

/-- The blocks among the items may bind the outputs of the node they belong to. -/
def Binding (H : Endpoint → Path → Prop) (p : Path) (owner : String) (items : List Item) : Prop :=
  ∀ port bindings tail, Item.block port bindings tail ∈ items → bindings ≠ [] →
    ∀ output, H ⟨owner, output⟩ (p ++ [⟨owner, port⟩])

theorem walking (h : Keeping x pass H D T F V S) :
    Walking x pass
      (fun c s code s' => c.Laid x → F s'.reads → F s.reads ∧
        ∀ p, (∀ q id, (q, id) ∈ c.visits p → V q id) → s.Homed H D p →
          s'.Homed H D p ∧ code.Declares D p ∧ Noted T s.reads s'.reads ∧
            ∀ q id, (q, id) ∈ c.visits p → S q id)
      (fun n _ own s code s' => ∀ items, own.Laid x items → F s'.reads → F s.reads ∧
        ∀ p, Binding H p n.node.id items →
          (∀ q id, (q, id) ∈ own.visits p n.node.id → V q id) → s.Homed H D p →
            s'.Homed H D p ∧ code.Declares D p ∧ Noted T s.reads s'.reads ∧
              ∀ q id, (q, id) ∈ own.visits p n.node.id → S q id) := by
  constructor
  case finish => exact fun _ hF => ⟨hF, fun p _ hs => ⟨hs, by simp, .refl _, by simp [Chain.visits]⟩⟩
  case step =>
    intro id own rest s n filling before s₁ code s₂ after s₃ hn henter _ _ hown hrest hlaid hF
    cases hlaid with
    | step hn' _ hx hr hp hc =>
      obtain rfl := Option.some.inj (hn.symm.trans hn')
      obtain ⟨r', s₁', em, s₂', hr', hin, hem, -, rfl⟩ := Walk.enter_ok henter
      obtain rfl := Option.some.inj (hr.symm.trans hr')
      obtain ⟨-, hcount, hout, -⟩ := Evaluation.emit_ok hem
      obtain ⟨hF₂, hrest⟩ := hrest hc hF
      obtain ⟨hF₁, hown⟩ := hown _ hp hF₂
      simp only [Walk.setHoisted_reads, Walk.bindOutputs_reads, hcount] at hF₁
      have hid := h.node_id hn
      refine ⟨h.final hin hF₁, fun p hV hs => ?_⟩
      have hVid : V p id := hV p id (.head _)
      obtain ⟨hs₁, hbefore, hN, hS⟩ := h.inputs (hid.symm ▸ hVid) (hid.symm ▸ hn) hin hF₁ hs
      have houter : ∀ name value port, (name, value) ∈ em.outputs → n.output? name = some port →
          H ⟨n.node.id, port.id⟩ p := by
        intro name value port hm _
        rw [hid]
        refine h.outer hVid hn hx hr (Recipe.not_bindsInside (x := x) (n := n) ?_) _
        intro hnil
        rw [hnil, List.mapM_nil] at hout
        rw [← Except.ok.inj hout] at hm
        cases hm
      have hbound : (Walk.bindOutputs n em.outputs s₂').Homed H D p :=
        .bindOutputs (hs₁.of_scopes (by rw [hcount])) houter
      obtain ⟨hs₂, hcode, hNown, hSown⟩ := hown p (by
          intro port bindings tail hm hb
          obtain ⟨hinside, rfl⟩ :=
            Recipe.bindsInside_of_mem (Flow.mem_of_mem_splitTail hm) hb
          rw [hid]
          exact h.inner hVid hn hx hr hinside)
        (fun q a hm => hV q a (.tail _ (List.mem_append_left _ (hid ▸ hm))))
        (hbound.setHoisted Code.declares_done)
      obtain ⟨hs₃, hafter, hNrest, hSrest⟩ := hrest p
        (fun q a hm => hV q a (.tail _ (List.mem_append_right _ hm)))
        (hs₂.setHoisted hbound.hoisted)
      refine ⟨hs₃, ?_, ?_, fun q a hm => ?_⟩
      · have hmark : (Code.mark id filling.inputs filling.vars (code ++ after)).Declares D p :=
          Code.declares_append.mpr ⟨hcode, hafter⟩
        exact Code.declares_append.mpr ⟨Code.declares_append.mpr ⟨hbefore, hs₂.hoisted⟩, hmark⟩
      · simp only [Walk.setHoisted_reads, Walk.bindOutputs_reads, hcount] at hNown hNrest
        exact (hN.trans hNown).trans hNrest
      · rcases List.mem_cons.mp hm with hm | hm
        · cases hm
          exact hid ▸ hS
        · rcases List.mem_append.mp hm with hm | hm
          · exact hSown q a (hid.symm ▸ hm)
          · exact hSrest q a hm
  case nil =>
    intro n filling s items hlaid hF
    exact ⟨hF, fun p _ _ hs => ⟨hs, by simp, .refl _, by simp [Parts.visits]⟩⟩
  case line =>
    intro n filling t rest s after s' ih items hlaid hF
    cases hlaid with
    | line _ hl =>
      obtain ⟨hF, ih⟩ := ih _ hl hF
      exact ⟨hF, fun p hb hV hs => ih p (fun port bs tl hm => hb port bs tl (.tail _ hm)) hV hs⟩
  case follow =>
    intro n filling body rest s code s₁ after s₂ _ hbody hrest items hlaid hF
    cases hlaid with
    | follow _ hb hl =>
      obtain ⟨hF, hrest⟩ := hrest _ hl hF
      obtain ⟨hF, hbody⟩ := hbody hb hF
      refine ⟨hF, fun p hbind hV hs => ?_⟩
      obtain ⟨hs₁, hc, hN₁, hS₁⟩ := hbody p (fun q a hm => hV q a (List.mem_append_left _ hm)) hs
      obtain ⟨hs₂, ha, hN₂, hS₂⟩ := hrest p (fun port bs tl hm => hbind port bs tl (.tail _ hm))
        (fun q a hm => hV q a (List.mem_append_right _ hm)) hs₁
      exact ⟨hs₂, Code.declares_append.mpr ⟨hc, ha⟩, hN₁.trans hN₂,
        fun q a hm => (List.mem_append.mp hm).elim (hS₁ q a) (hS₂ q a)⟩
  case block =>
    intro n filling port bindings tail body rest s code s₁ after s₂ _ _ hbody hrest items hlaid hF
    cases hlaid with
    | block _ _ _ hb hl =>
      obtain ⟨hF, hrest⟩ := hrest _ hl hF
      obtain ⟨hF, hbody⟩ := hbody hb (by simpa using hF)
      refine ⟨by simpa using hF, fun p hbind hV hs => ?_⟩
      obtain ⟨hs₁, hc, hN₁, hS₁⟩ := hbody _ (fun q a hm => hV q a (List.mem_append_left _ hm))
        (hs.openBlock fun name i port' hm _ =>
          hbind port bindings tail (.head _) (List.ne_nil_of_mem hm) _)
      obtain ⟨hs₂, ha, hN₂, hS₂⟩ := hrest p (fun port bs tl hm => hbind port bs tl (.tail _ hm))
        (fun q a hm => hV q a (List.mem_append_right _ hm)) hs₁.closeBlock
      exact ⟨hs₂, Code.declares_block.mpr ⟨by simpa using hc, ha⟩, by simpa using hN₁.trans (by simpa using hN₂),
        fun q a hm => (List.mem_append.mp hm).elim (hS₁ q a) (hS₂ q a)⟩
  case named =>
    intro n filling port name body rest s e after s' _ ih items hlaid hF
    cases hlaid with
    | thread _ _ hdone _ hl =>
      obtain rfl := hdone rfl
      obtain ⟨hF, ih⟩ := ih _ hl hF
      exact ⟨hF, fun p hb hV hs => ih p (fun port bs tl hm => hb port bs tl (.tail _ hm)) hV hs⟩
  case thread =>
    intro n filling port name isConnected body rest s code s₁ after s₂ _ _ hbody hrest items hlaid hF
    cases hlaid with
    | thread _ _ _ hb hl =>
      obtain ⟨hF, hrest⟩ := hrest _ hl hF
      obtain ⟨hF, hbody⟩ := hbody hb (by simpa using hF)
      refine ⟨by simpa using hF, fun p hbind hV hs => ?_⟩
      obtain ⟨hs₁, hc, hN₁, hS₁⟩ := hbody _ (fun q a hm => hV q a (List.mem_append_left _ hm))
        (hs.openBlock fun _ _ _ hm => by cases hm)
      obtain ⟨hs₂, ha, hN₂, hS₂⟩ := hrest p (fun port bs tl hm => hbind port bs tl (.tail _ hm))
        (fun q a hm => hV q a (List.mem_append_right _ hm)) hs₁.closeBlock
      exact ⟨hs₂, Code.declares_block.mpr ⟨hc, ha⟩, by simpa using hN₁.trans (by simpa using hN₂),
        fun q a hm => (List.mem_append.mp hm).elim (hS₁ q a) (hS₂ q a)⟩

end Keeping

namespace EntryFunction

theorem initial_homed {H D : Endpoint → Path → Prop} {n : PlacedNode}
    (h : ∀ port, H ⟨n.node.id, port⟩ []) : (initial n).Homed H D [] := by
  refine ⟨?_, ?_, ?_⟩ <;> rw [initial_scopes]
  · exact .body rfl
  · rfl
  · refine ⟨⟨fun slot value hm => ?_, Code.declares_done⟩, trivial⟩
    obtain ⟨q, hq, he⟩ := List.mem_map.mp (List.mem_reverse.mp hm)
    cases he
    obtain ⟨s, -, rfl⟩ := List.mem_map.mp hq
    exact h _

end EntryFunction

/-- A pass over an entry that keeps its promises. -/
theorem Keeping.entry {x : Index} {pass : Pass} {F : List (String × Path) → Prop}
    {V S : Path → String → Prop} (h : Keeping x pass H D T F V S) {n : PlacedNode} {flow : Parts}
    {body : Code} {s : State} (hw : EntryFunction.walkFlow x pass n flow = .ok (body, s))
    (hlaid : flow.Laid x (Flow.entryItems n)) (hF : F s.reads)
    (hV : ∀ q id, (q, id) ∈ flow.visits [] n.node.id → V q id)
    (hH : ∀ port, H ⟨n.node.id, port⟩ []) :
    body.Declares D [] ∧ (∀ id q, (id, q) ∈ s.reads → T id q) ∧
      ∀ q id, (q, id) ∈ flow.visits [] n.node.id → S q id := by
  obtain ⟨-, hrun⟩ := h.walking.parts flow hw _ hlaid hF
  obtain ⟨-, hcode, hnoted, hS⟩ := hrun [] (fun port bindings tail hm => by
    obtain ⟨s, -, he⟩ := List.mem_map.mp hm
    cases he) hV (EntryFunction.initial_homed hH)
  refine ⟨hcode, fun id q hm => ?_, hS⟩
  rcases hnoted id q hm with hm | hm
  · simp at hm
  · exact hm

end VisualScript
