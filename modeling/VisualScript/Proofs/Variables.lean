import VisualScript.Proofs.Pairing
import VisualScript.Proofs.Stock

/-!
# Proofs — Variables

The variables of an entry function, its blocks and its threads have different names.  What is written
keeps the names in stock in order (`Walk.stocking`), and so the parameters, the temporaries, the
variables of statements and those of loop headers differ (`EntryFunction.names_distinct`).

A thread is handed names from outside, which its body does not introduce, with one exception.  A node
that appends to an array hands the array on; where that is a text that reads like the name of a
variable, a thread takes it for one (`Code.Quotes`).  `EntryFunction.quoted_name_clashes` is a graph
in which a thread has a parameter and a variable of the same name for this reason.
-/

namespace VisualScript

open Evaluation Walk Scopes

/-! ### Threads -/

namespace Code

/-- A node that appends to an array hands on the array; the value it hands on reads `v`, but is not
the variable `v`. -/
def Quotes (x : Index) (c : Code) (v : String) : Prop :=
  ∃ id inputs n e, (id, inputs) ∈ c.marks ∧ x.node? id = some n ∧
    Recipe.ofType? n.node.nodeType = some .append ∧ inputs.lookup "array" = some (some e) ∧
    e.text = v ∧ e ≠ .ofVar v

theorem Quotes.mono {x : Index} {c d : Code} {v : String} (h : c.Quotes x v)
    (hm : ∀ m ∈ c.marks, m ∈ d.marks) : d.Quotes x v := by
  obtain ⟨id, inputs, n, e, hin, hrest⟩ := h
  exact ⟨id, inputs, n, e, hm _ hin, hrest⟩

/-- The parameters of every thread differ, and none of them is given to a node of its body again, if
it is not quoted. -/
def Apart (quoted : String → Prop) (c : Code) : Prop :=
  ∀ t ∈ c.threads, t.captures.Nodup ∧ ∀ v ∈ t.captures, v ∈ t.body.issued → quoted v

@[simp] theorem apart_append {quoted : String → Prop} {c d : Code} :
    (c ++ d).Apart quoted ↔ c.Apart quoted ∧ d.Apart quoted := by
  simp only [Apart, threads_append, List.forall_mem_append]

theorem Flat.apart {quoted : String → Prop} {c : Code} (h : c.Flat) : c.Apart quoted := by
  intro t ht
  rw [h.threads_eq] at ht
  cases ht

end Code

/-! ### Outlines -/

namespace Recipe

variable {x : Index} {n : PlacedNode} {r : Recipe}

/-- A node with statements hands on a fresh variable or its array. -/
theorem output_cases (hvalue : r.isValue = false) :
    ∀ o ∈ (r.outline x n).outputs,
      (∃ i < (r.outline x n).fresh.length, o.2 = .expr [.fresh i]) ∨
        r = .append ∧ o.2 = .copy "array" := by
  cases r with
  | expression | constant | reroute => cases hvalue
  | switch type =>
    simp only [outline]
    split <;> simp
  | _ => simp [outline]

/-- What is bound in a block is a fresh variable of the node. -/
theorem bindings_lt {port : String} {bindings : List (String × Nat)} {tail : List String}
    (h : .block port bindings tail ∈ (r.outline x n).items) :
    ∀ b ∈ bindings, b.2 < (r.outline x n).fresh.length := by
  intro b hb
  obtain ⟨hr, -⟩ := bindsInside_of_mem h (List.ne_nil_of_mem hb)
  cases r with
  | loopFor =>
    simp only [outline, List.mem_cons, Item.block.injEq, reduceCtorEq, List.not_mem_nil, or_false,
      false_or] at h
    obtain ⟨-, rfl, -⟩ := h
    have hindex : ∀ b ∈ [("index", 0)], b.2 < 1 := by decide
    exact hindex b hb
  | loopEach =>
    simp only [outline, List.mem_cons, Item.block.injEq, reduceCtorEq, List.not_mem_nil, or_false,
      false_or] at h
    obtain ⟨-, rfl, -⟩ := h
    have hindex : ∀ b ∈ [("element", 1), ("index", 0)], b.2 < 2 := by decide
    exact hindex b hb
  | _ => cases hr

end Recipe

/-! ### Writing -/

namespace State.Stocked

variable {quoted : String → Prop} {held w w' v : List String} {ws : List (List String)} {s : State}

/-- What waits in the current block is exchanged. -/
theorem setHoisted (h : s.Stocked quoted held (w :: ws)) {code : Code}
    (hp : (w' ++ code.issued).Perm (w ++ (hoisted s).issued)) :
    (setHoisted s code).Stocked quoted held (w' :: ws) := by
  obtain ⟨scopes, counter, reads⟩ := s
  cases h.owned with
  | @cons _ _ sc ss top rest =>
    have hstock : (stock (w' :: ws) ({ sc with hoisted := code } :: ss)).Perm
        (stock (w :: ws) (sc :: ss)) := by
      simp only [stock, ← List.append_assoc]
      exact hp.append_right _
    refine h.subperm (hstock.append_left held).subperm (Nat.le_refl _)
      (.cons ⟨fun b hb => ?_, top.captured, top.once⟩ rest)
    exact (top.bound b hb).imp_left fun hvars v hv => hstock.mem_iff.mpr (hvars v hv)

theorem bindOutputs {n : PlacedNode} {outputs : List (String × Expr)}
    (h : s.Stocked quoted held (w :: ws))
    (ho : ∀ o ∈ outputs, (∀ v ∈ o.2.vars, v ∈ stock (w :: ws) s.scopes) ∧
      (o.2 = .ofVar o.2.text ∨ quoted o.2.text)) :
    (bindOutputs n outputs s).Stocked quoted held (w :: ws) := by
  refine (bindOutputs_induct (P := fun t => t.Stocked quoted held (w :: ws) ∧
      stock (w :: ws) t.scopes = stock (w :: ws) s.scopes) ⟨h, rfl⟩ fun o hm p _ t ht => ?_).1
  have hstock := ht.2 ▸ (ho o hm).1
  exact ⟨ht.1.bind hstock (ho o hm).2, by simpa [State.bind] using ht.2⟩

/-- A block begins without names of its own. -/
theorem openBlock {n : PlacedNode} {key : BlockKey} {isThread : Bool}
    {bindings : List (String × Nat)} {vars : List String} (h : s.Stocked quoted held (w :: ws))
    (hvars : ∀ b ∈ bindings, vars.getD b.2 "" ∈ w) :
    (openBlock n key isThread bindings vars s).Stocked quoted held ([] :: w :: ws) := by
  have hopen : State.Stocked quoted held ([] :: w :: ws)
      { s with scopes := { key := some key, isThread := isThread } :: s.scopes } :=
    h.subperm (List.Subperm.refl _) (Nat.le_refl _)
      (.cons ⟨fun b hb => (by cases hb), fun c hc => (by cases hc), List.nodup_nil⟩ h.owned)
  refine hopen.bindOutputs fun o ho => ?_
  obtain ⟨b, hb, rfl⟩ := List.mem_map.mp ho
  refine ⟨fun v hv => ?_, .inl (by rw [Expr.text_ofVar])⟩
  rw [List.mem_singleton.mp hv]
  exact h.mem_stock (hvars b hb)

/-- At its end the names of a block go to the block around it.  What a thread is handed comes from
outside, and so it is not among the names of its body. -/
theorem closeBlock (h : s.Stocked quoted held (v :: w :: ws)) :
    (closeBlock s).2.Stocked quoted held ((w ++ v) :: ws) ∧ (closeBlock s).1.Nodup ∧
      ∀ c ∈ (closeBlock s).1, c ∈ v → quoted c := by
  obtain ⟨scopes, counter, reads⟩ := s
  cases h.owned with
  | @cons _ _ sc ss top rest =>
    cases rest with
    | @cons _ _ sc' ss top' rest' =>
      refine ⟨h.subperm ?_ (Nat.le_refl _)
        (Owned.write (.cons top' rest') fun _ hv => List.mem_append_left _ hv), top.once,
        fun c hc hv => (top.captured c hc).resolve_left fun hout => ?_⟩
      · have hsub : (v ++ stock (w :: ws) (sc' :: ss)).Sublist
            (stock (v :: w :: ws) (sc :: sc' :: ss)) :=
          (List.sublist_append_right _ _).append_left v
        exact (List.subperm_append_left held).mpr
          ((stock_write_perm sc' ss).subperm.trans hsub.subperm)
      · have hnodup := (List.nodup_append.mp h.distinct).2.1
        exact (List.nodup_append.mp hnodup).2.2 c hv c (List.mem_append_right _ hout) rfl

end State.Stocked

section

variable {nodes : List Node} {connections : List Connection} {x : Index} {quoted : String → Prop}

/-- When the items of a node begin, its fresh variables are in stock, and its outputs are bound to
them or to its array. -/
theorem Walk.enter_stocked (hb : Index.Built .builtin nodes connections x)
    (hports : ∀ node ∈ nodes, Catalog.builtin.Furnishes node) {pass : Pass} {id : String}
    {n : PlacedNode} {r : Recipe} {filling : Filling} {before : Code} {s s₁ : State}
    {held w : List String} {ws : List (List String)} (hn : x.node? id = some n)
    (hx : n.hasExec = true) (hr : Recipe.ofType? n.node.nodeType = some r)
    (henter : enter x pass n s = .ok (filling, before, s₁))
    (hquoted : ∀ e, r = .append → filling.inputs.lookup "array" = some (some e) →
      e ≠ .ofVar e.text → quoted e.text)
    (h : s.Stocked quoted held (w :: ws)) :
    s₁.Stocked quoted held ((w ++ before.issued ++ filling.vars) :: ws) := by
  obtain ⟨r', s₁', em, s₂', hr', hin, hem, hvars, rfl⟩ := enter_ok henter
  obtain rfl := Option.some.inj (hr.symm.trans hr')
  obtain ⟨hd, htype⟩ := hb.mem_definitions hn
  have hvalue : r.isValue = false := by
    have hagrees := (Catalog.builtin_sound n.definition hd).recipe r (by rw [htype]; exact hr)
    rw [hagrees.value, ← hb.hasExec_definition hports hn, hx]
    rfl
  obtain ⟨h₁, hinputs⟩ := (Evaluation.stocking hb hports quoted pass).inputs hin held w ws h
  obtain ⟨hem₁, hem₂, hout, -⟩ := emit_ok hem
  have h₂ : s₂'.Stocked quoted held ((w ++ before.issued ++ em.vars) :: ws) := by
    have hstems : ∀ stem ∈ (r.outline x n).fresh, Unnumbered stem := fun stem hs =>
      Recipe.unnumbered_of_mem_fresh (Catalog.builtin_names _ hd).1 hs
    have hfresh := h₁.freshVars hstems
    rw [State.freshVars_snd, ← hem₁] at hfresh
    rw [hem₂]
    exact hfresh
  rw [hvars]
  refine h₂.bindOutputs fun o ho => ?_
  obtain ⟨⟨name, out⟩, hm, hv⟩ := exists_of_mem_mapM hout ho
  rcases Recipe.output_cases hvalue _ hm with ⟨i, hi, rfl⟩ | ⟨hr, rfl⟩
  · cases hv
    have hfill : Template.fill filling.inputs em.vars [.fresh i] = .ofVar (em.vars.getD i "") := by
      simp [Template.fill]
    rw [hfill]
    refine ⟨fun v hv => h₂.mem_stock (List.mem_append_right _ ?_), .inl (by rw [Expr.text_ofVar])⟩
    have hlen : i < em.vars.length := by rwa [hem₁, State.freshVars_length]
    rw [List.mem_singleton.mp hv, List.getD_eq_getElem?_getD, List.getElem?_eq_getElem hlen]
    exact List.getElem_mem hlen
  · simp only [outputValue] at hv
    split at hv
    · rename_i e he
      cases hv
      refine ⟨fun v hv => ?_, or_iff_not_imp_left.mpr (hquoted e hr he)⟩
      rw [emit_scopes hem]
      refine mem_stock_write (fun _ hv => List.mem_append_left _ hv) ?_
      exact (hinputs v (Inputs.mem_vars_of_lookup he hv)).resolve_left (by simp [Inputs.vars])
    · cases hv

/-- What is written keeps the stock in order, and its threads are apart. -/
theorem Walk.stocking (hb : Index.Built .builtin nodes connections x)
    (hports : ∀ node ∈ nodes, Catalog.builtin.Furnishes node) (quoted : String → Prop)
    (pass : Pass) :
    Walking x pass
      (fun c s code s' => c.Laid x → (∀ v, code.Quotes x v → quoted v) →
        ∀ w ws, s.Stocked quoted [] (w :: ws) →
          s'.Stocked quoted [] ((w ++ code.issued) :: ws) ∧ code.Apart quoted)
      (fun _ filling own s code s' => ∀ items, Parts.Laid x items own →
        (∀ port bindings tail, .block port bindings tail ∈ items →
          ∀ b ∈ bindings, b.2 < filling.vars.length) →
        (∀ v, code.Quotes x v → quoted v) → ∀ w ws, (∀ v ∈ filling.vars, v ∈ w) →
          s.Stocked quoted [] (w :: ws) →
            s'.Stocked quoted [] ((w ++ code.issued) :: ws) ∧ code.Apart quoted) := by
  constructor
  case finish =>
    intro s _ _ w ws h
    exact ⟨by simpa [Code.issued] using h, fun t ht => by cases ht⟩
  case step =>
    intro id own rest s n filling before s₁ code s₂ after s₃ hn henter hran _ hown hrest hlaid hquoted
      w ws h
    cases hlaid with
    | @step _ _ r _ _ hn' _ hx hr hlp hlc =>
      obtain rfl := Option.some.inj (hn.symm.trans hn')
      have h₁ := enter_stocked hb hports hn hx hr henter (fun e ha he hne => hquoted _
        ⟨id, filling.inputs, n, e, by simp [Code.marks], hn, ha ▸ hr, he, rfl, hne⟩) h
      have hlen : filling.vars.length = (r.outline x n).fresh.length := by
        obtain ⟨r', _, em, _, hr', -, hem, hvars, -⟩ := enter_ok henter
        obtain rfl := Option.some.inj (hr.symm.trans hr')
        rw [hvars, (emit_ok hem).1, State.freshVars_length]
      -- what waits outside is set aside while the items of the node are written
      have h₂ : (setHoisted s₁ .done).Stocked quoted []
          ((w ++ before.issued ++ filling.vars ++ (hoisted s₁).issued) :: ws) :=
        h₁.setHoisted (by simp [Code.issued])
      obtain ⟨h₃, ha₁⟩ := hown _ hlp
        (fun port bindings tail hm => hlen ▸ Recipe.bindings_lt (Flow.mem_of_mem_splitTail hm))
        (fun v hv => hquoted v (hv.mono fun m hm => by simp [Code.marks, hm])) _ ws
        (fun v hv => by simp [hv]) h₂
      have h₄ : (setHoisted s₂ (hoisted s₁)).Stocked quoted []
          ((w ++ before.issued ++ (hoisted s₂).issued ++ filling.vars ++ code.issued) :: ws) := by
        refine h₃.setHoisted ?_
        simp only [List.append_assoc]
        refine .append_left _ (.append_left _ ?_)
        refine List.perm_append_comm.trans ?_
        simp only [List.append_assoc]
        refine .append_left _ ?_
        rw [← List.append_assoc]
        exact (List.perm_append_comm.append_right _).trans (by rw [List.append_assoc])
      obtain ⟨h₅, ha₂⟩ := hrest hlc
        (fun v hv => hquoted v (hv.mono fun m hm => by simp [Code.marks, hm])) _ ws h₄
      have hbefore : before.Flat := by
        obtain ⟨_, _, _, _, -, hin, -, -, -⟩ := enter_ok henter
        exact ((growing x pass).inputs hin).2
      have hfront := (setHoisted_grow ((writing x pass hb.node_id).parts own hran).1).2
      simp only [Code.issued_append, Code.issued, Code.apart_append]
      refine ⟨by simpa only [List.append_assoc] using h₅, ⟨hbefore.apart, hfront.apart⟩, ?_⟩
      exact Code.apart_append.mpr ⟨ha₁, ha₂⟩
  case nil =>
    intro n filling s items _ _ _ w ws _ h
    exact ⟨by simpa [Code.issued] using h, fun t ht => by cases ht⟩
  case line =>
    intro n filling t rest s after s' ih items hlaid hbindings
    cases hlaid with
    | line _ hl => exact ih _ hl fun port bindings tail hm => hbindings port bindings tail (.tail _ hm)
  case follow =>
    intro n filling body rest s code s₁ after s₂ _ hbody hrest items hlaid hbindings hquoted w ws hvars
      h
    cases hlaid with
    | follow _ hlb hl =>
      obtain ⟨h₁, ha₁⟩ := hbody hlb
        (fun v hv => hquoted v (hv.mono fun m hm => by simp [hm])) w ws h
      obtain ⟨h₂, ha₂⟩ := hrest _ hl
        (fun port bindings tail hm => hbindings port bindings tail (.tail _ hm))
        (fun v hv => hquoted v (hv.mono fun m hm => by simp [hm])) _ ws
        (fun v hv => List.mem_append_left _ (hvars v hv)) h₁
      rw [Code.issued_append, ← List.append_assoc]
      exact ⟨h₂, Code.apart_append.mpr ⟨ha₁, ha₂⟩⟩
  case block =>
    intro n filling port bindings tail body rest s code s₁ after s₂ _ _ hbody hrest items hlaid
      hbindings hquoted w ws hvars h
    cases hlaid with
    | block _ _ _ hlb hl =>
      have hbound : ∀ b ∈ bindings, filling.vars.getD b.2 "" ∈ w := by
        intro b hm
        have hlt := hbindings port bindings tail (.head _) b hm
        rw [List.getD_eq_getElem?_getD, List.getElem?_eq_getElem hlt]
        exact hvars _ (List.getElem_mem hlt)
      obtain ⟨h₁, ha₁⟩ := hbody hlb
        (fun v hv => hquoted v (hv.mono fun m hm => by simp [Code.marks, hm])) [] (w :: ws)
        (h.openBlock hbound)
      obtain ⟨h₂, ha₂⟩ := hrest _ hl
        (fun port bindings tail hm => hbindings port bindings tail (.tail _ hm))
        (fun v hv => hquoted v (hv.mono fun m hm => by simp [Code.marks, hm])) _ ws
        (fun v hv => List.mem_append_left _ (hvars v hv)) h₁.closeBlock.1
      simp only [Code.issued, Code.issued_append, Code.issued_ofLines, List.append_nil,
        ← List.append_assoc]
      refine ⟨by simpa using h₂, fun t ht => ?_⟩
      rcases List.mem_append.mp ht with ht | ht
      · exact ha₁ t (by simpa using ht)
      · exact ha₂ t ht
  case named =>
    intro n filling port name body rest s e after s' _ ih items hlaid hbindings
    cases hlaid with
    | thread _ _ _ _ hl =>
      exact ih _ hl fun port bindings tail hm => hbindings port bindings tail (.tail _ hm)
  case thread =>
    intro n filling port name isConnected body rest s code s₁ after s₂ _ _ hbody hrest items hlaid
      hbindings hquoted w ws hvars h
    cases hlaid with
    | thread _ _ _ hlb hl =>
      obtain ⟨h₁, ha₁⟩ := hbody hlb
        (fun v hv => hquoted v (hv.mono fun m hm => by simp [Code.marks, hm])) [] (w :: ws)
        (h.openBlock (by simp))
      obtain ⟨hclose, honce, hapart⟩ := h₁.closeBlock
      obtain ⟨h₂, ha₂⟩ := hrest _ hl
        (fun port bindings tail hm => hbindings port bindings tail (.tail _ hm))
        (fun v hv => hquoted v (hv.mono fun m hm => by simp [Code.marks, hm])) _ ws
        (fun v hv => List.mem_append_left _ (hvars v hv)) hclose
      simp only [Code.issued, ← List.append_assoc]
      refine ⟨by simpa using h₂, fun t ht => ?_⟩
      rcases List.mem_append.mp ht with ht | ht
      · exact ha₁ t ht
      · rcases List.mem_cons.mp ht with rfl | ht
        · exact ⟨honce, by simpa using hapart⟩
        · exact ha₂ t ht

/-! ### Parameters -/

/-- The parameters of an entry node with all its ports are those of its definition. -/
theorem EntryFunction.params_names (hb : Index.Built .builtin nodes connections x)
    (hports : ∀ node ∈ nodes, Catalog.builtin.Furnishes node) {id : String} {n : PlacedNode}
    (hn : x.node? id = some n) :
    ((paramsOf n).map fun p => p.2.2) = n.definition.paramNames := by
  have hapart := (Catalog.builtin_toldApart _ (hb.mem_definitions hn).1).outputs
  have hout : n.outputs = n.definition.outputs.zipIdx.map fun s =>
      ⟨Matching.portOf "output_" false s, some s.1⟩ := by
    rw [(hb.furnished hports hn).2]
    exact PlacedNode.socketsOf_portsOf hapart "output_" false
  have hfilter : ∀ ts : List PortTemplate, ∀ k,
      ((ts.zipIdx k).map fun s => (⟨Matching.portOf "output_" false s, some s.1⟩ : Socket)).filter
        (·.port.kind == .data) =
      ((ts.zipIdx k).filter fun s => s.1.kind == .data).map fun s =>
        ⟨Matching.portOf "output_" false s, some s.1⟩ := by
    intro ts k
    rw [List.filter_map]
    rfl
  rw [paramsOf, List.map_map, hout, hfilter, List.map_map, Definition.paramNames]
  conv_rhs => rw [← List.zipIdx_map_fst 0 n.definition.outputs, List.filter_map, List.map_map]
  simp only [Function.comp_def]
  exact List.map_congr_left fun s _ => congrArg Name.identifier rfl

/-- No name of an entry function is given out twice, and its threads are apart. -/
theorem EntryFunction.body_stocked (hb : Index.Built .builtin nodes connections x)
    (hports : ∀ node ∈ nodes, Catalog.builtin.Furnishes node) {pass : Pass} {n : PlacedNode}
    {flow : Parts} (hf : (n, flow) ∈ Script.flows x x.entries {}) {body : Code} {s : State}
    (hw : walkFlow x pass n flow = .ok (body, s)) (hquoted : ∀ v, body.Quotes x v → quoted v) :
    (((paramsOf n).map fun p => p.2.2) ++ body.issued).Nodup ∧ body.Apart quoted := by
  obtain ⟨hn, he⟩ := (Script.mem_entries hb).mp (Script.mem_of_mem_flows hf)
  have hlaid := (Script.flows_entries hb).1 _ hf
  obtain ⟨hnodup, hnumbers⟩ := (Catalog.builtin_names _ (hb.mem_definitions hn).1).2 he
  rw [← params_names hb hports hn] at hnodup hnumbers
  have hstart : (initial n).Stocked quoted [] [(paramsOf n).map fun p => p.2.2] := by
    refine ⟨?_, fun v hv => ?_, ?_⟩
    · rw [initial_scopes]
      simpa [stock, Code.issued] using hnodup
    · rw [initial_scopes] at hv
      exact .of_unnumbered (hnumbers v (by simpa [stock, Code.issued] using hv)) _
    · rw [initial_scopes]
      refine .cons ⟨fun b hb => ?_, fun c hc => (by cases hc), List.nodup_nil⟩ .nil
      obtain ⟨p, hp, rfl⟩ := List.mem_map.mp (List.mem_reverse.mp hb)
      refine ⟨fun v hv => ?_, .inl (by rw [Expr.text_ofVar])⟩
      rw [List.mem_singleton.mp hv]
      exact List.mem_append_left _ (List.mem_map.mpr ⟨p, hp, rfl⟩)
  obtain ⟨hend, hapart⟩ := (Walk.stocking hb hports quoted pass).parts flow hw _ hlaid
    (fun port bindings tail hm => by
      obtain ⟨_, -, hitem⟩ := List.mem_map.mp hm
      cases hitem) hquoted _ [] (fun v hv => by cases hv) hstart
  refine ⟨?_, hapart⟩
  obtain ⟨scopes, counter, reads⟩ := s
  have hdistinct := hend.distinct
  cases hend.owned with
  | cons => exact (List.nodup_append.mp (List.nodup_append.mp hdistinct).2.1).1

/-- **The variables of an entry function have different names.**  Let the script of a graph over the
built-in catalog be generated, where every node carries the ports of its definition.  The parameters
of an entry function and the variables that are introduced in its body, its blocks and its threads
differ: temporaries, the variables of statements and those of loop headers.  The parameters of a
thread function differ as well; one that its body introduces again is the text of an array, other
than a variable, that a node which appends to it hands on. -/
theorem EntryFunction.names_distinct {indent moduleId text : String}
    (hbuild : Index.build .builtin nodes connections = .ok x)
    (hgen : Script.generate .builtin indent moduleId nodes connections = .ok text)
    (hports : ∀ node ∈ nodes, Catalog.builtin.Furnishes node) :
    ∃ fs, Script.functions x moduleId = .ok fs ∧
      (nodes ≠ [] → text = Script.text indent moduleId fs) ∧ ∀ f ∈ fs,
        (f.params.map Prod.snd ++ f.body.introduced).Nodup ∧
        ∀ t ∈ f.body.threads, t.captures.Nodup ∧
          ∀ v ∈ t.captures, v ∈ t.body.introduced → f.body.Quotes x v := by
  have hb := Index.built_of_build hbuild
  obtain ⟨fs, hfs, htext⟩ := Script.functions_of_generate hbuild hgen
  refine ⟨fs, hfs, htext, fun f hf => ?_⟩
  obtain ⟨⟨n, flow⟩, hmem, hmake⟩ := exists_of_mem_mapM hfs hf
  obtain ⟨-, recorded, last, -, hlast, -, hparams, -⟩ := make_ok hmake
  obtain ⟨hnodup, hapart⟩ := body_stocked hb hports hmem hlast fun v hv => hv
  obtain ⟨hexact, hthreads⟩ := body_exact hb hmem hlast
  constructor
  · rw [hparams, List.map_map]
    exact (hexact.append_left _).nodup_iff.mpr hnodup
  · intro t ht
    obtain ⟨honce, hquotes⟩ := hapart t ht
    exact ⟨honce, fun v hv hi => hquotes v hv ((hthreads t ht).mem_iff.mp hi)⟩

/-- In the loop, the thread and behind the loop all names differ. -/
theorem EntryFunction.names_distinct_job : ∃ x text fs f t,
    Index.build .builtin jobNodes jobConnections = .ok x ∧
      Script.generate .builtin "\t" "demo" jobNodes jobConnections = .ok text ∧
      (∀ node ∈ jobNodes, Catalog.builtin.Furnishes node) ∧ Script.functions x "demo" = .ok fs ∧
      f ∈ fs ∧ t ∈ f.body.threads ∧ t.captures = ["player", "rand1", "i0"] ∧
      (f.params.map Prod.snd ++ f.body.introduced).Nodup ∧
      ∀ t ∈ f.body.threads, t.captures.Nodup ∧
        ∀ v ∈ t.captures, v ∈ t.body.introduced → f.body.Quotes x v := by
  obtain ⟨x, fs, f, t, hx, hfs, hf, -, ht, hcaptures⟩ := job_functions
  have htext := Script.generate_of_functions hx (by simp [jobNodes]) hfs "\t"
  obtain ⟨fs', hfs', -, hall⟩ := names_distinct hx htext job_furnished
  obtain rfl := Except.ok.inj (hfs.symm.trans hfs')
  exact ⟨x, _, fs, f, t, hx, htext, job_furnished, hfs, hf, ht, hcaptures, (hall f hf).1,
    (hall f hf).2⟩

end

/-! ### A text that reads like a variable -/

/-- The array to append to is written out as `arr0`, and a thread appends a new array to it. -/
def EntryFunction.echoNodes : List Node :=
  [{ id := "spawn", nodeType := "on-player-respawned" },
   { id := "push", nodeType := "array-append", data := [("array", .str "arr0")] },
   { id := "job", nodeType := "thread" }, { id := "again", nodeType := "array-append" },
   { id := "fresh", nodeType := "array-create" }]

def EntryFunction.echoConnections : List Connection :=
  [⟨"c0", ⟨"spawn", "output_0"⟩, ⟨"push", "input_0"⟩⟩,
   ⟨"c1", ⟨"push", "output_0"⟩, ⟨"job", "input_0"⟩⟩,
   ⟨"c2", ⟨"job", "output_0"⟩, ⟨"again", "input_0"⟩⟩,
   ⟨"c3", ⟨"push", "output_1"⟩, ⟨"again", "input_1"⟩⟩,
   ⟨"c4", ⟨"fresh", "output_0"⟩, ⟨"again", "input_2"⟩⟩]

/-- The thread function has the parameter `arr0`, and it declares `arr0` for the new array. -/
theorem EntryFunction.quoted_name_clashes : ∃ x fs f t,
    Index.build .builtin echoNodes echoConnections = .ok x ∧
      (∀ node ∈ echoNodes, Catalog.builtin.Furnishes node) ∧ Script.functions x "demo" = .ok fs ∧
      f ∈ fs ∧ t ∈ f.body.threads ∧ t.captures = ["arr0"] ∧ "arr0" ∈ t.body.introduced := by
  have key : (Index.build .builtin echoNodes echoConnections).toOption.any (fun x =>
      (Script.functions x "demo").toOption.any fun fs => fs.any fun f => f.body.threads.any fun t =>
        t.captures == ["arr0"] && t.body.introduced.contains "arr0") = true := by
    rw [Index.build, Index.addNode_builtin]
    decide +kernel
  obtain ⟨x, fs, hx, hfs, -, key⟩ := Script.exists_of_run (List.cons_ne_nil _ _) key "\t"
  obtain ⟨f, hf, key⟩ := List.any_eq_true.mp key
  obtain ⟨t, ht, key⟩ := List.any_eq_true.mp key
  rw [Bool.and_eq_true, List.contains_iff_mem, beq_iff_eq] at key
  exact ⟨x, fs, f, t, hx, Catalog.furnishes_of_isEmpty (by decide), hfs, hf, ht, key.1, key.2⟩

end VisualScript
