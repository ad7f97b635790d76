import VisualScript.Proofs.Pairing
import VisualScript.Proofs.Visibility
import VisualScript.Proofs.Writing

/-!
# Proofs — Scoping

Every variable of a generated body is declared where its uses can see it.  Along a flow the code of
each chain fits into its block (`Walk.ChainFits`), and the items of a node fit in one of three ways:
they are lines that declare before they use, outputs to go on with, or blocks that may use the
variables of a loop header.

* `Walk.scoping`: every pass over a flow writes code that fits.
* `EntryFunction.uses_in_scope`: the body of an entry function uses its parameters and what it declares, in
  blocks that enclose the uses.
-/

namespace VisualScript

open Evaluation Scopes Walk

/-! ### Array values that are handed on -/

namespace Code

variable {c d : Code} {leak : String → Prop}

/-- The exec nodes of a body with the inputs of their statements. -/
def marks : Code → List (String × Inputs)
  | done                    => []
  | mark id inputs _ rest   => (id, inputs) :: marks rest
  | line _ rest             => marks rest
  | declare _ _ _ rest      => marks rest
  | block _ body rest       => marks body ++ marks rest
  | thread _ _ _ body rest  => marks body ++ marks rest

@[simp] theorem marks_append (c d : Code) : (c ++ d).marks = c.marks ++ d.marks := by
  induction c <;> simp_all [marks]

/-- A node that appends to an array hands on the array; the value it hands on mentions `v`, but is
not just the variable `v`. -/
def HandsOn (x : Index) (c : Code) (v : String) : Prop :=
  ∃ id inputs n e, (id, inputs) ∈ c.marks ∧ x.node? id = some n ∧
    Recipe.ofType? n.node.nodeType = some .append ∧ inputs.lookup "array" = some (some e) ∧
    v ∈ e.vars ∧ e ≠ .ofVar v

theorem HandsOn.mono {x : Index} {v : String} (h : c.HandsOn x v)
    (hm : ∀ m ∈ c.marks, m ∈ d.marks) : d.HandsOn x v := by
  obtain ⟨id, inputs, n, e, hin, hrest⟩ := h
  exact ⟨id, inputs, n, e, hm _ hin, hrest⟩

/-- Every thread is handed what its body needs, apart from what leaks. -/
def Handed (leak : String → Prop) (c : Code) : Prop :=
  ∀ t ∈ c.threads, ∀ v ∈ t.body.free [], v ∈ t.captures ∨ leak v

@[simp] theorem handed_append : (c ++ d).Handed leak ↔ c.Handed leak ∧ d.Handed leak := by
  simp only [Handed, threads_append, List.forall_mem_append]

theorem Flat.handed (h : c.Flat) : c.Handed leak := by
  intro t ht
  rw [h.threads_eq] at ht
  cases ht

end Code

/-! ### Lines -/

/-- Templates filled in one after the other. -/
def Code.filled (filling : Filling) : List Template → Code
  | []      => .done
  | t :: ts => .line (t.fill filling.inputs filling.vars) (filled filling ts)

section

variable {filling : Filling} {v : String}

/-- Lines leave the state as it is. -/
theorem Walk.parts_lines {x : Index} {pass : Pass} {n : PlacedNode} {s : State} :
    ∀ {ts : List Template} {own : Parts}, own.Laid x (ts.map .line) →
      Walk.parts x pass n filling own s = .ok (Code.filled filling ts, s)
  | [], _, .done => rfl
  | t :: ts, .line _ rest, .line _ h => by
    rw [Walk.parts, parts_lines h]
    rfl

namespace Code

theorem mem_free_filled : ∀ {ts : List Template} {known : List Nat} {loop : List String},
    Template.Ordered known ts → v ∈ (filled filling ts).free loop →
      v ∈ filling.inputs.vars ∨ ∃ i ∈ known, v = filling.vars.getD i ""
  | t :: ts, known, loop, ho, h => by
    rw [filled, free] at h
    rcases List.mem_append.mp h with h | h
    · rcases Template.mem_uses_fill h with h | ⟨i, hi, he⟩
      · exact .inl h
      · exact .inr ⟨i, ho.1 i hi, he⟩
    · obtain ⟨h, hn⟩ := List.mem_filter.mp h
      rcases mem_free_filled ho.2 h with h | ⟨i, hi, he⟩
      · exact .inl h
      refine .inr ⟨i, (List.mem_append.mp hi).resolve_right fun hi => ?_, he⟩
      simp only [decide_eq_true_eq] at hn
      exact hn (he ▸ Template.mem_declared_fill hi)

theorem mem_declared_filled {i : Nat} : ∀ {ts : List Template}, i ∈ ts.flatMap Template.declares →
    filling.vars.getD i "" ∈ (filled filling ts).declared
  | t :: ts, h => by
    rw [List.flatMap_cons] at h
    rw [filled, declared]
    exact (List.mem_append.mp h).elim
      (fun h => List.mem_append_left _ (Template.mem_declared_fill h))
      fun h => List.mem_append_right _ (mem_declared_filled h)

theorem of_mem_declared_filled : ∀ {ts : List Template}, v ∈ (filled filling ts).declared →
    v ∈ filling.inputs.vars ∨ ∃ i ∈ ts.flatMap Template.freshes, v = filling.vars.getD i ""
  | t :: ts, h => by
    rw [filled, declared] at h
    rcases List.mem_append.mp h with h | h
    · rcases Template.mem_vars_fill (Expr.mem_vars_of_mem_declared h) with h | ⟨i, hi, he⟩
      · exact .inl h
      · exact .inr ⟨i, List.mem_append_left _ hi, he⟩
    · rcases of_mem_declared_filled h with h | ⟨i, hi, he⟩
      · exact .inl h
      · exact .inr ⟨i, List.mem_append_right _ hi, he⟩

theorem threads_filled : ∀ ts : List Template, (filled filling ts).threads = []
  | []      => rfl
  | _ :: ts => threads_filled ts

end Code

end

/-! ### Opening and closing blocks -/

section

variable {n : PlacedNode} {key : BlockKey} {isThread : Bool} {bindings : List (String × Nat)}
  {vars : List String}

variable {leak : String → Prop} {w : List String} {ws : List (List String)} {v : String}
  {s s' : State}

theorem Walk.setHoisted_hoisted (s : State) : setHoisted s (hoisted s) = s := by
  obtain ⟨scopes, counter, reads⟩ := s
  cases scopes <;> rfl

@[simp] theorem Walk.hoisted_setHoisted_done (s : State) : hoisted (setHoisted s .done) = .done := by
  obtain ⟨scopes, counter, reads⟩ := s
  cases scopes <;> rfl

theorem Scopes.Visible.setHoisted (h : Visible leak (w :: ws) s.scopes v) :
    Visible leak ((w ++ (hoisted s).declared) :: ws) (setHoisted s .done).scopes v := by
  obtain ⟨scopes, counter, reads⟩ := s
  cases scopes with
  | nil => exact h
  | cons sc ss =>
    rcases h with h | h | h
    · exact .inl (List.mem_append_left _ h)
    · exact .inl (List.mem_append_right _ h)
    · exact .inr (.inr h)

/-- What waits in the current block fits in front of the node it waits for. -/
theorem Scopes.Sighted.hoisted (h : Sighted leak (w :: ws) s.scopes) :
    (hoisted s).Fits leak w ws (setHoisted s .done).scopes := by
  obtain ⟨scopes, counter, reads⟩ := s
  cases h with
  | @cons _ _ sc ss h rest =>
    refine ⟨.cons ⟨?_, fun slot value hb v hv => ?_, fun v hv => nomatch hv⟩ rest, fun v hv => ?_⟩
    · simpa [Code.declared, Walk.hoisted] using h.names
    · have hvis := h.bound slot value hb v hv
      refine hvis.imp_left fun hvis => ?_
      exact Visible.setHoisted (s := ⟨sc :: ss, counter, reads⟩) hvis
    · exact (h.waiting v hv).imp_right .inr

theorem Scopes.Sighted.bindOutputs {outputs : List (String × Expr)}
    (h : Sighted leak (w :: ws) s.scopes)
    (hvars : ∀ name value, (name, value) ∈ outputs → ∀ v ∈ value.vars,
      Visible leak (w :: ws) s.scopes v ∧ (value = .ofVar v ∨ leak v)) :
    Sighted leak (w :: ws) (bindOutputs n outputs s).scopes := by
  -- what is visible at first stays visible, since scopes only grow
  refine (bindOutputs_induct
    (P := fun t => Sighted leak (w :: ws) t.scopes ∧ Grow s.scopes t.scopes)
    ⟨h, .refl _⟩ fun o ho p _ t ht => ⟨ht.1.bind fun v hv => ?_, ht.2.bind _ _⟩).1
  exact (hvars o.1 o.2 ho v hv).imp_left (·.grow ht.2)

/-- In a new block the variables of the loop header are visible, and values may be bound to them. -/
theorem Scopes.Sighted.openBlock (loop : List Nat) (h : Sighted leak ws s.scopes)
    (hnames : ∀ i ∈ loop, (Expr.ofVar (vars.getD i "")).isVariable = true)
    (hloop : ∀ b ∈ bindings, b.2 ∈ loop) :
    Sighted leak (loop.map (vars.getD · "") :: ws)
      (openBlock n key isThread bindings vars s).scopes := by
  refine bindOutputs (.cons ⟨fun v hv => ?_, fun _ _ hb => (nomatch hb), fun _ hv => (nomatch hv)⟩ h)
    fun name value hm v hv => ?_
  · simp only [Code.declared, List.append_nil] at hv
    obtain ⟨i, hi, rfl⟩ := List.mem_map.mp hv
    exact hnames i hi
  · obtain ⟨b, hb, he⟩ := List.mem_map.mp hm
    cases he
    obtain rfl := List.mem_singleton.mp hv
    exact ⟨.inl (List.mem_map.mpr ⟨b.2, hloop b hb, rfl⟩), .inl rfl⟩

theorem Scopes.Sighted.closeBlock (h : Sighted leak (w :: ws) s.scopes) :
    Sighted leak ws (closeBlock s).2.scopes := by
  obtain ⟨scopes, counter, reads⟩ := s
  cases h with
  | cons _ rest => exact rest

/-- What the end of a block sees is declared in the block or visible outside, and a thread has been
handed it. -/
theorem Scopes.Visible.closeBlock
    (hg : Grow (openBlock n key isThread bindings vars s).scopes s'.scopes)
    (hd : hoisted s' = .done) (h : Visible leak (w :: ws) s'.scopes v) :
    v ∈ w ∨ Visible leak ws (closeBlock s').2.scopes v ∧
      (isThread = true → v ∈ (closeBlock s').1 ∨ leak v) := by
  have hopen : Grow ({ key := some key, isThread := isThread } :: s.scopes) s'.scopes :=
    (bindOutputs_grow n _ _).trans hg
  obtain ⟨scopes, counter, reads⟩ := s'
  cases hopen with
  | @cons a b _ ss' hab _ =>
    have hd : b.hoisted = .done := hd
    rcases h with h | h | h
    · exact .inl h
    · rw [hd] at h
      cases h
    · exact .inr ⟨h.1, fun ht => h.2 (hab.isThread.trans ht)⟩

theorem Code.Fits.mark {ss : Scopes} {c : Code} (id : String) (inputs : Inputs)
    (vars : List String) (h : c.Fits leak w ws ss)
    (hin : ∀ v ∈ inputs.vars, Visible leak (w :: ws) ss v) :
    (Code.mark id inputs vars c).Fits leak w ws ss :=
  ⟨h.scopes, fun v hv => (List.mem_append.mp hv).elim (hin v) (h.free v)⟩

end

/-! ### Along a flow -/

/-- The code of a chain fits into its block.  Nothing waits in the block at its beginning or end. -/
def Walk.ChainFits (leak : String → Prop) (x : Index) (c : Chain) (s : State) (code : Code)
    (s' : State) : Prop :=
  c.Laid x → hoisted s = .done → (∀ v, code.HandsOn x v → leak v) →
    ∀ w ws, Sighted leak (w :: ws) s.scopes →
      code.Fits leak w ws s'.scopes ∧ code.Handed leak ∧ hoisted s' = .done

/-- Blocks and the lines around them fit behind the declarations `w`.  They may use the inputs of
their node, and `loop` where a loop header is above them. -/
structure Code.Nests (leak : String → Prop) (filling : Filling) (loop : List Nat) (w : List String)
    (ws : List (List String)) (ss : Scopes) (code : Code) : Prop where
  scopes : Sighted leak (w :: ws) ss
  inputs : ∀ v ∈ filling.inputs.vars, Visible leak (w :: ws) ss v
  free   : ∀ v ∈ code.free (loop.map (filling.vars.getD · "")), Visible leak (w :: ws) ss v
  names  : ∀ v ∈ code.declared, (Expr.ofVar v).isVariable = true
  handed : code.Handed leak

/-- The items of a node fit, where they are outputs to go on with and where they are blocks. -/
def Walk.PartsFit (leak : String → Prop) (x : Index) (filling : Filling) (own : Parts) (s : State)
    (code : Code) (s' : State) : Prop :=
  ∀ items, own.Laid x items → (∀ v, code.HandsOn x v → leak v) → ∀ w ws,
    Sighted leak (w :: ws) s.scopes →
      ((∃ ports : List String, items = ports.map .follow) → hoisted s = .done →
        code.Fits leak w ws s'.scopes ∧ code.Handed leak ∧ hoisted s' = .done) ∧
      (∀ loop, Item.Framed loop items →
        (∀ i ∈ loop ++ items.flatMap Item.freshes,
          (Expr.ofVar (filling.vars.getD i "")).isVariable = true) →
        (∀ v ∈ filling.inputs.vars, Visible leak (w :: ws) s.scopes v) →
        code.Nests leak filling loop w ws s'.scopes)

section

variable {ts : List Template} {outputs : List (String × Expr)} {s s' : State} {code : Code}
  {r : Recipe} {inputs : Inputs}

variable {leak : String → Prop} {x : Index} {n : PlacedNode} {filling : Filling} {w : List String}
  {ws : List (List String)}

/-- Lines fit that declare variables before they use them; the node hands on values made from its
inputs or from these variables. -/
theorem Walk.lines_fit (h : Sighted leak (w :: ws) s.scopes) (ho : Template.Ordered [] ts)
    (hnames : ∀ i ∈ ts.flatMap Template.freshes,
      (Expr.ofVar (filling.vars.getD i "")).isVariable = true)
    (hin : ∀ v ∈ filling.inputs.vars, Visible leak (w :: ws) s.scopes v)
    (hout : ∀ name value, (name, value) ∈ outputs →
      (∃ i ∈ ts.flatMap Template.declares, value = .ofVar (filling.vars.getD i "")) ∨
        ∀ v ∈ value.vars, v ∈ filling.inputs.vars ∧ (value = .ofVar v ∨ leak v)) :
    (Code.filled filling ts).Fits leak w ws (bindOutputs n outputs s).scopes := by
  have hw : Sighted leak ((w ++ (Code.filled filling ts).declared) :: ws) s.scopes := by
    refine h.write fun v hv => ?_
    rcases Code.of_mem_declared_filled hv with hv | ⟨i, hi, rfl⟩
    · exact h.isVariable (hin v hv)
    · exact hnames i hi
  refine ⟨hw.bindOutputs fun name value hm v hv => ?_, fun v hv => ?_⟩
  · rcases hout name value hm with ⟨i, hi, rfl⟩ | hvars
    · obtain rfl := List.mem_singleton.mp hv
      exact ⟨hw.visible (List.mem_append_right _ (Code.mem_declared_filled hi)), .inl rfl⟩
    · exact ⟨(hin v (hvars v hv).1).write, (hvars v hv).2⟩
  · have hv := (Code.mem_free_filled ho hv).resolve_right fun ⟨i, hi, _⟩ => nomatch hi
    exact (hin v hv).grow (bindOutputs_grow n outputs s)

/-- Blocks fit together with what waits in front of them. -/
theorem Code.Nests.mark (h : code.Nests leak filling [] w ws s.scopes) (id : String) :
    (hoisted s ++ .mark id filling.inputs filling.vars code).Fits leak w ws
      (setHoisted s .done).scopes := by
  have hfront := h.scopes.hoisted
  refine hfront.append (.refl _) (.mark _ _ _ ⟨hfront.scopes.write h.names, fun v hv => ?_⟩ ?_)
  · exact (h.free v hv).setHoisted
  · exact fun v hv => (h.inputs v hv).setHoisted

/-- Where nothing waits, a node fits whose code does. -/
theorem Code.Fits.mark_still (h : code.Fits leak w ws s.scopes) (hd : hoisted s = .done)
    (hin : ∀ v ∈ filling.inputs.vars, Visible leak (w :: ws) s.scopes v) (id : String) :
    (hoisted s ++ .mark id filling.inputs filling.vars code).Fits leak w ws
      (setHoisted s .done).scopes := by
  have hself : setHoisted s .done = s := by
    conv_lhs => rw [← hd]
    exact setHoisted_hoisted s
  rw [hself, hd, Code.done_append]
  exact h.mark id filling.inputs filling.vars hin

/-- The code of a block or thread uses the variables of the loop header, or what is visible outside;
a thread has been handed it. -/
theorem Walk.body_fits {key : BlockKey} {isThread : Bool} {bindings : List (String × Nat)}
    {body : Chain} (loop : List Nat)
    (hbody : ChainFits leak x body (openBlock n key isThread bindings filling.vars s) code s')
    (hlaid : body.Laid x) (hleak : ∀ v, code.HandsOn x v → leak v)
    (hg : Grow (openBlock n key isThread bindings filling.vars s).scopes s'.scopes)
    (h : Sighted leak (w :: ws) s.scopes)
    (hnames : ∀ i ∈ loop, (Expr.ofVar (filling.vars.getD i "")).isVariable = true)
    (hloop : ∀ b ∈ bindings, b.2 ∈ loop) :
    Sighted leak (w :: ws) (closeBlock s').2.scopes ∧ code.Handed leak ∧ ∀ v ∈ code.free [],
      v ∈ loop.map (filling.vars.getD · "") ∨ Visible leak (w :: ws) (closeBlock s').2.scopes v ∧
        (isThread = true → v ∈ (closeBlock s').1 ∨ leak v) := by
  obtain ⟨hfits, hhanded, hdone⟩ := hbody hlaid (hoisted_bindOutputs _ _ _) hleak _ (w :: ws)
    (h.openBlock loop hnames hloop)
  exact ⟨hfits.scopes.closeBlock, hhanded, fun v hv => (hfits.free v hv).closeBlock hg hdone⟩

/-- What a node with lines hands on: variables its lines declare, or its array. -/
theorem Evaluation.outputs_of_lines {outs : List (String × Output)} {vars : List String}
    (hout : outs.mapM (outputValue inputs vars) = .ok outputs)
    (hlines : ∀ o ∈ outs, (∃ i ∈ ts.flatMap Template.declares, o.2 = .expr [.fresh i]) ∨
      r = .append ∧ o.2 = .copy "array")
    (hleak : r = .append → ∀ e, inputs.lookup "array" = some (some e) → ∀ v ∈ e.vars, e ≠ .ofVar v →
      leak v) {name : String} {value : Expr} (hm : (name, value) ∈ outputs) :
    (∃ i ∈ ts.flatMap Template.declares, value = .ofVar (vars.getD i "")) ∨
      ∀ v ∈ value.vars, v ∈ inputs.vars ∧ (value = .ofVar v ∨ leak v) := by
  obtain ⟨⟨name', out⟩, hmem, ho⟩ := exists_of_mem_mapM hout hm
  rcases hlines _ hmem with ⟨i, hi, he⟩ | ⟨hr, he⟩
  · obtain rfl : out = .expr [.fresh i] := he
    cases ho
    exact .inl ⟨i, hi, by simp [Template.fill]⟩
  · obtain rfl : out = .copy "array" := he
    simp only [outputValue] at ho
    split at ho
    · rename_i e hl
      cases ho
      refine .inr fun v hv => ⟨Inputs.mem_vars_of_lookup hl hv, ?_⟩
      by_cases hc : value = .ofVar v
      · exact .inl hc
      · exact .inr (hleak hr value hl v hv hc)
    · cases ho

/-- The fresh variables of a node have names of variables. -/
theorem Evaluation.isVariable_of_emit {em : Emission}
    (hstem : Text.isIdentifier n.definition.varStem.toList = true)
    (hem : emit (r.outline x n) inputs s = .ok (em, s')) {i : Nat}
    (hi : i < (r.outline x n).fresh.length) :
    (Expr.ofVar (em.vars.getD i "")).isVariable = true := by
  have hfresh : ∀ (stems : List String) (s : State), ∀ v ∈ (s.freshVars stems).1,
      ∃ stem ∈ stems, ∃ k : Nat, v = stem ++ toString k := by
    intro stems
    induction stems with
    | nil => exact fun _ _ hv => nomatch hv
    | cons stem stems ih =>
      intro s v hv
      rcases List.mem_cons.mp hv with rfl | hv
      · exact ⟨stem, .head _, s.counter, rfl⟩
      · obtain ⟨stem', hm, k, he⟩ := ih _ v hv
        exact ⟨stem', .tail _ hm, k, he⟩
  obtain ⟨hvars, -, -, -⟩ := emit_ok hem
  have hlen : i < em.vars.length := by rw [hvars, State.freshVars_length]; exact hi
  have hmem : em.vars.getD i "" ∈ em.vars := by
    rw [List.getD_eq_getElem?_getD, List.getElem?_eq_getElem hlen]
    exact List.getElem_mem hlen
  rw [hvars] at hmem
  obtain ⟨stem, hs, k, he⟩ := hfresh _ _ _ hmem
  rw [hvars, he]
  refine Expr.isVariable_fresh ?_ k
  rcases Recipe.stem_of_mem_fresh hs with rfl | hs
  · exact hstem
  · have hwords : ∀ word ∈ ["i", "idx", "elem"], Text.isIdentifier word.toList = true := by decide
    exact hwords stem hs

end

section

variable {pass : Pass} {id : String} {n : PlacedNode} {s : State}

variable {nodes : List Node} {connections : List Connection} {x : Index} {leak : String → Prop}
  {w : List String} {ws : List (List String)}

/-- What a node has when its items begin: visible inputs, and fresh variables with names of
variables.  Its outputs are bound on top of the state `s₀` in which its inputs are there. -/
theorem Walk.enter_fits (hb : Index.Built .builtin nodes connections x)
    (hports : ∀ node ∈ nodes, Catalog.builtin.Furnishes node) {r : Recipe} {filling : Filling}
    {before : Code} {s s₁ : State} (hn : x.node? id = some n)
    (hr : Recipe.ofType? n.node.nodeType = some r)
    (henter : enter x pass n s = .ok (filling, before, s₁)) (hdone : hoisted s = .done)
    (h : Sighted leak (w :: ws) s.scopes) :
    ∃ outputs s₀, s₁ = bindOutputs n outputs s₀ ∧ before.Flat ∧ before.Fits leak w ws s₀.scopes ∧
      (∀ v ∈ filling.inputs.vars, Visible leak ((w ++ before.declared) :: ws) s₀.scopes v) ∧
      hoisted s₀ = .done ∧
      (∀ i ∈ (r.outline x n).items.flatMap Item.freshes,
        (Expr.ofVar (filling.vars.getD i "")).isVariable = true) ∧
      (r.outline x n).outputs.mapM (outputValue filling.inputs filling.vars) = .ok outputs := by
  obtain ⟨r', s₁', em, s₂', hr', hin, hem, hvars, rfl⟩ := Walk.enter_ok henter
  obtain rfl := Option.some.inj (hr.symm.trans hr')
  obtain ⟨hd, htype⟩ := hb.mem_definitions hn
  have hsound := Catalog.builtin_sound n.definition hd
  have hagrees := hsound.recipe r (by rw [htype]; exact hr)
  obtain ⟨hbefore, hinputs⟩ := (Evaluation.sighted hb hports leak pass).inputs hin w ws h
  refine ⟨em.outputs, s₂', rfl, ((growing x pass).inputs hin).2, emit_scopes hem ▸ hbefore,
    fun v hv => ?_, ?_, fun i hi => ?_, hvars ▸ (emit_ok hem).2.2.1⟩
  · exact emit_scopes hem ▸ (hinputs v hv).resolve_left (by simp [Inputs.vars])
  · rw [← hdone, ← (waiting x pass).inputs hin]
    simp only [Walk.hoisted, emit_scopes hem]
  · exact hvars ▸ isVariable_of_emit hsound.stem hem (Recipe.freshes_lt x n hagrees.closed hi)

/-- A node fits together with what waits in front of it, whichever form its items have. -/
theorem Walk.node_fits {r : Recipe} {own : Parts} {filling : Filling}
    {outputs : List (String × Expr)} {s s' : State} {code : Code}
    (hframe : Recipe.Frame x n r (Outline.splitTail (r.outline x n).items).1)
    (hn : x.node? id = some n) (hr : Recipe.ofType? n.node.nodeType = some r)
    (hlaid : own.Laid x (Outline.splitTail (r.outline x n).items).1)
    (hran : Walk.parts x pass n filling own (bindOutputs n outputs s) = .ok (code, s'))
    (hown : PartsFit leak x filling own (bindOutputs n outputs s) code s')
    (hgrow : Grow (bindOutputs n outputs s).scopes s'.scopes)
    (hleak : ∀ v, (Code.mark id filling.inputs filling.vars code).HandsOn x v → leak v)
    (h : Sighted leak (w :: ws) s.scopes) (hdone : hoisted s = .done)
    (hin : ∀ v ∈ filling.inputs.vars, Visible leak (w :: ws) s.scopes v)
    (hnames : ∀ i ∈ (r.outline x n).items.flatMap Item.freshes,
      (Expr.ofVar (filling.vars.getD i "")).isVariable = true)
    (hout : (r.outline x n).outputs.mapM (outputValue filling.inputs filling.vars) = .ok outputs) :
    (hoisted s' ++ .mark id filling.inputs filling.vars code).Fits leak w ws
      (setHoisted s' .done).scopes ∧ code.Handed leak := by
  have hnames : ∀ i ∈ (Outline.splitTail (r.outline x n).items).1.flatMap Item.freshes,
      (Expr.ofVar (filling.vars.getD i "")).isVariable = true := by
    intro i hi
    obtain ⟨item, hm, hi⟩ := List.mem_flatMap.mp hi
    exact hnames i (List.mem_flatMap.mpr ⟨item, Flow.mem_of_mem_splitTail hm, hi⟩)
  have hleakOwn : ∀ v, code.HandsOn x v → leak v := fun v hv =>
    hleak v (hv.mono fun m hm => .tail _ hm)
  have hempty : (r.outline x n).outputs = [] → bindOutputs n outputs s = s := by
    intro hnil
    rw [hnil] at hout
    cases hout
    rfl
  cases hframe with
  | lines ts hi ordered houtputs =>
    rw [hi] at hlaid hnames
    rw [parts_lines hlaid] at hran
    cases hran
    have hnames : ∀ i ∈ ts.flatMap Template.freshes,
        (Expr.ofVar (filling.vars.getD i "")).isVariable = true := by
      simpa [List.flatMap_map, Item.freshes] using hnames
    have hfits := lines_fit (n := n) h ordered hnames hin fun name value hm =>
      outputs_of_lines hout houtputs (fun ha e he v hv hne =>
        hleak v ⟨id, filling.inputs, n, e, .head _, hn, ha ▸ hr, he, hv, hne⟩) hm
    refine ⟨hfits.mark_still (by rw [hoisted_bindOutputs, hdone])
      (fun v hv => (hin v hv).grow (bindOutputs_grow n outputs s)) id, fun t ht => ?_⟩
    rw [Code.threads_filled] at ht
    cases ht
  | follows ports hi hnil =>
    rw [hempty hnil] at hown hgrow
    obtain ⟨hfits, hhanded, hstill⟩ := (hown _ hlaid hleakOwn w ws h).1 ⟨ports, hi⟩ hdone
    exact ⟨hfits.mark_still hstill (fun v hv => (hin v hv).grow hgrow) id, hhanded⟩
  | nested framed hnil =>
    rw [hempty hnil] at hown
    have hnests := (hown _ hlaid hleakOwn w ws h).2 [] framed (by simpa using hnames) hin
    exact ⟨hnests.mark id, hnests.handed⟩

/-- **Every pass writes code that fits.** -/
theorem Walk.scoping (hb : Index.Built .builtin nodes connections x)
    (hports : ∀ node ∈ nodes, Catalog.builtin.Furnishes node) (leak : String → Prop) (pass : Pass) :
    Walking x pass (ChainFits leak x) (fun _ filling => PartsFit leak x filling) := by
  have hwrite := writing x pass hb.node_id
  constructor
  case finish =>
    intro s _ hdone _ w ws h
    exact ⟨.done h, fun t ht => (nomatch ht), hdone⟩
  case step =>
    intro id own rest s n filling before s₁ code s₂ after s₃ hn henter hranOwn hranRest hown hrest
      hlaid hdone hleak w ws h
    cases hlaid with
    | @step _ _ r _ _ hn' _ hx hr hlp hlc =>
      obtain rfl := Option.some.inj (hn.symm.trans hn')
      obtain ⟨outputs, s₀, rfl, hflat, hbefore, hin, hstill, hnames, hout⟩ :=
        enter_fits hb hports hn hr henter hdone h
      -- nothing waits when the items begin, so nothing is set aside
      rw [← hoisted_bindOutputs n outputs s₀] at hstill
      have hself : setHoisted (bindOutputs n outputs s₀) .done = bindOutputs n outputs s₀ := by
        conv_lhs => rw [← hstill]
        exact setHoisted_hoisted _
      rw [hstill] at hranRest hrest
      have hgrowOwn := (hwrite.parts own hranOwn).1
      obtain ⟨hset, hfront⟩ := setHoisted_grow hgrowOwn
      rw [hself] at hranOwn hown hgrowOwn
      rw [hstill] at hset
      have hframe : Recipe.Frame x n r (Outline.splitTail (r.outline x n).items).1 := by
        obtain ⟨hd, htype⟩ := hb.mem_definitions hn
        have hagrees := (Catalog.builtin_sound n.definition hd).recipe r (by rw [htype]; exact hr)
        refine Recipe.frame x n ?_ hagrees.closed
        rw [hagrees.value, ← hb.hasExec_definition hports hn, hx]
        rfl
      obtain ⟨hfits, hhanded⟩ := node_fits hframe hn hr hlp hranOwn hown hgrowOwn
        (fun v hv => hleak v (hv.mono fun m hm => by
          rcases List.mem_cons.mp hm with rfl | hm <;> simp [Code.marks, *]))
        hbefore.scopes (by rw [← hstill, hoisted_bindOutputs]) hin hnames hout
      obtain ⟨hafter, hhandedRest, hdoneRest⟩ := hrest hlc (hoisted_setHoisted_done s₂)
        (fun v hv => hleak v (hv.mono fun m hm => by simp [Code.marks, hm])) _ ws hfits.scopes
      have hcode : before ++ hoisted s₂ ++ .mark id filling.inputs filling.vars (code ++ after) =
          before ++ ((hoisted s₂ ++ .mark id filling.inputs filling.vars code) ++ after) := by
        simp [Code.append_assoc]
      have hgrowRest := (hwrite.chain rest hranRest).1.1
      rw [hcode]
      refine ⟨hbefore.append (((bindOutputs_grow n outputs s₀).trans hset).trans hgrowRest)
        (hfits.append hgrowRest hafter), ?_, hdoneRest⟩
      simp only [Code.handed_append]
      exact ⟨hflat.handed, ⟨hfront.handed, hhanded⟩, hhandedRest⟩
  case nil =>
    intro n filling s items hlaid _ w ws h
    cases hlaid
    refine ⟨fun _ hdone => ⟨.done h, fun t ht => (nomatch ht), hdone⟩, fun loop _ _ hin => ?_⟩
    exact ⟨h, hin, fun v hv => (nomatch hv), fun v hv => (nomatch hv), fun t ht => (nomatch ht)⟩
  case line =>
    intro n filling t rest s after s' ih items hlaid hleak w ws h
    cases hlaid with
    | @line items _ _ hl =>
      obtain ⟨-, ih⟩ := ih _ hl hleak w ws h
      refine ⟨?_, fun loop hframe hnames hin => ?_⟩
      · rintro ⟨ports, hp⟩
        cases ports <;> cases hp
      obtain ⟨hneeds, hframed⟩ := hframe
      -- the loop variables that the next item may use
      have hnames' : ∀ i ∈ (if t = [.text "\x7b"] then loop else t.heads) ++
          items.flatMap Item.freshes,
          (Expr.ofVar (filling.vars.getD i "")).isVariable = true := by
        intro i hi
        refine hnames i ?_
        simp only [List.flatMap_cons, List.mem_append, Item.freshes] at hi ⊢
        rcases hi with hi | hi
        · split at hi
          · exact .inl hi
          · exact .inr (.inl (Template.mem_freshes_of_mem_heads hi))
        · exact .inr (.inr hi)
      have hrest := ih _ hframed hnames' hin
      refine ⟨hrest.scopes, hrest.inputs, fun v hv => ?_, fun v hv => ?_, hrest.handed⟩
      · rw [Code.free] at hv
        rcases List.mem_append.mp hv with hv | hv
        · exact hrest.inputs v ((Template.mem_uses_fill hv).resolve_right (by simp [hneeds]))
        · refine hrest.free v (Code.mem_free_mono (List.mem_filter.mp hv).1 fun u hu => ?_)
          by_cases ht : t = [.text "\x7b"]
          · rw [if_pos ht] at hu
            rw [if_pos (by rw [ht]; rfl)]
            exact hu
          · rw [if_neg ht] at hu
            obtain ⟨i, hi, rfl⟩ := List.mem_map.mp hu
            have hm : filling.vars.getD i "" ∈ (t.fill filling.inputs filling.vars).loopVars :=
              Template.mem_loopVars_fill hi
            split
            · rename_i he
              rw [he] at hm
              cases hm
            · exact hm
      · rcases List.mem_append.mp hv with hv | hv
        · rcases Template.mem_vars_fill (Expr.mem_vars_of_mem_declared hv) with hv | ⟨i, hi, rfl⟩
          · exact hrest.scopes.isVariable (hrest.inputs v hv)
          · exact hnames i (by simp [Item.freshes, hi])
        · exact hrest.names v hv
  case follow =>
    intro n filling body rest s code s₁ after s₂ hran hbody hrest items hlaid hleak w ws h
    cases hlaid with
    | follow _ hlb hl =>
      refine ⟨?_, fun loop hframed => absurd hframed id⟩
      rintro ⟨ports, hp⟩ hdone
      cases ports with
      | nil => cases hp
      | cons port ports =>
        obtain ⟨hfits, hhanded, hdone⟩ := hbody hlb hdone
          (fun v hv => hleak v (hv.mono fun m hm => by simp [hm])) w ws h
        obtain ⟨hafter, hhanded', hdone'⟩ := (hrest _ hl
          (fun v hv => hleak v (hv.mono fun m hm => by simp [hm])) _ ws hfits.scopes).1
            ⟨ports, (List.cons.inj hp).2⟩ hdone
        exact ⟨hfits.append (hwrite.parts rest hran).1 hafter, by simpa using ⟨hhanded, hhanded'⟩,
          hdone'⟩
  case block =>
    intro n filling port bindings tail body rest s code s₁ after s₂ hranBody hranRest hbody hrest
      items hlaid hleak w ws h
    cases hlaid with
    | block _ _ _ hlb hl =>
      refine ⟨?_, fun loop hframe hnames hin => ?_⟩
      · rintro ⟨ports, hp⟩
        cases ports <;> cases hp
      obtain ⟨hloop, hframed⟩ := hframe
      have hgrow := (hwrite.chain body hranBody).1.1
      obtain ⟨hclose, hhanded, hfree⟩ := body_fits loop hbody hlb
        (fun v hv => hleak v (hv.mono fun m hm => by simp [Code.marks, hm])) hgrow h
        (fun i hi => hnames i (List.mem_append_left _ hi)) hloop
      have hafter := (hrest _ hl
        (fun v hv => hleak v (hv.mono fun m hm => by simp [Code.marks, hm])) w ws hclose).2 []
        hframed (fun i hi => hnames i (List.mem_append_right _ hi))
        fun v hv => (hin v hv).grow (closeBlock_grow hgrow)
      refine ⟨hafter.scopes, hafter.inputs, fun v hv => ?_, hafter.names, ?_⟩
      · rcases List.mem_append.mp hv with hv | hv
        · obtain ⟨hv, hn⟩ := List.mem_filter.mp hv
          simp only [decide_eq_true_eq] at hn
          have hv := (Code.mem_free_append hv).resolve_right (by simp)
          exact ((hfree v hv).resolve_left hn).1.grow (hwrite.parts rest hranRest).1
        · exact hafter.free v hv
      · intro t ht
        rcases List.mem_append.mp ht with ht | ht
        · exact hhanded t (by simpa using ht)
        · exact hafter.handed t ht
  case named =>
    intro n filling port name body rest s e after s' hname ih items hlaid hleak w ws h
    cases hlaid with
    | thread _ _ _ _ hl =>
      refine ⟨?_, fun loop hframed hnames hin => ?_⟩
      · rintro ⟨ports, hp⟩
        cases ports <;> cases hp
      have hrest := (ih _ hl hleak w ws h).2 [] hframed
        (fun i hi => hnames i (List.mem_append_right _ hi)) hin
      have hvars : ∀ v ∈ Expr.vars (.text "thread " :: e ++ Expr.ofText "()"),
          v ∈ filling.inputs.vars := by
        intro v hv
        have hv : v ∈ e.vars := by simpa [Expr.vars, Expr.ofText] using hv
        unfold namedFunction? at hname
        split at hname
        · cases hname
        · dsimp only at hname
          split at hname
          · cases hname
          · cases hname
            exact Template.mem_vars_inputText hv
      refine ⟨hrest.scopes, hrest.inputs, fun v hv => ?_, fun v hv => ?_, hrest.handed⟩
      · rcases List.mem_append.mp hv with hv | hv
        · exact hrest.inputs v (hvars v (Expr.mem_vars_of_mem_uses hv))
        · exact hrest.free v (Code.mem_free_mono (List.mem_filter.mp hv).1 (by simp))
      · rcases List.mem_append.mp hv with hv | hv
        · exact hrest.scopes.isVariable (hrest.inputs v (hvars v (Expr.mem_vars_of_mem_declared hv)))
        · exact hrest.names v hv
  case thread =>
    intro n filling port name isConnected body rest s code s₁ after s₂ hranBody hranRest hbody hrest
      items hlaid hleak w ws h
    cases hlaid with
    | thread _ _ _ hlb hl =>
      refine ⟨?_, fun loop hframed hnames hin => ?_⟩
      · rintro ⟨ports, hp⟩
        cases ports <;> cases hp
      have hgrow := (hwrite.chain body hranBody).1.1
      obtain ⟨hclose, hhanded, hfree⟩ := body_fits [] hbody hlb
        (fun v hv => hleak v (hv.mono fun m hm => by simp [Code.marks, hm])) hgrow h (by simp)
        (by simp)
      have hafter := (hrest _ hl
        (fun v hv => hleak v (hv.mono fun m hm => by simp [Code.marks, hm])) w ws hclose).2 []
        hframed (fun i hi => hnames i (List.mem_append_right _ hi))
        fun v hv => (hin v hv).grow (closeBlock_grow hgrow)
      refine ⟨hafter.scopes, hafter.inputs, fun v hv => ?_, hafter.names, ?_⟩
      · rcases List.mem_append.mp hv with hv | hv
        · have hvis := (hfree v hv).resolve_left (by simp)
          exact hvis.1.grow (hwrite.parts rest hranRest).1
        · exact hafter.free v hv
      · intro t ht
        rcases List.mem_append.mp ht with ht | ht
        · exact hhanded t ht
        · rcases List.mem_cons.mp ht with rfl | ht
          · exact fun v hv => ((hfree v hv).resolve_left (by simp)).2 rfl
          · exact hafter.handed t ht

/-- The parameters of an entry function have names of variables. -/
theorem EntryFunction.isVariable_of_mem_params (hb : Index.Built .builtin nodes connections x)
    (hports : ∀ node ∈ nodes, Catalog.builtin.Furnishes node) (hn : x.node? id = some n)
    (he : n.definition.isEntry = true) {slot : Endpoint} {type name : String}
    (hm : (slot, type, name) ∈ paramsOf n) : (Expr.ofVar name).isVariable = true := by
  obtain ⟨s, hs, heq⟩ := List.mem_map.mp hm
  obtain ⟨hs, hk⟩ := List.mem_filter.mp hs
  cases heq
  obtain ⟨t, ht⟩ := Option.isSome_iff_exists.mp
    (hb.paired hports hn (List.mem_append_right _ hs))
  rw [hb.outputs_eq hn] at hs
  obtain ⟨hkind, hmem⟩ := PlacedNode.template_kind hs ht
  have hname : s.name = t.name := by simp only [Socket.name, ht]
  rw [hname]
  exact (Catalog.builtin_sound _ (hb.mem_definitions hn).1).params he t hmem
    (hkind.trans (by simpa using hk))

/-- The body of an entry function uses nothing but its parameters that it does not declare itself, and
every thread in it is handed what it needs, apart from what leaks. -/
theorem EntryFunction.body_fits (hb : Index.Built .builtin nodes connections x)
    (hports : ∀ node ∈ nodes, Catalog.builtin.Furnishes node) {flow : Parts}
    (hf : (n, flow) ∈ Script.flows x x.entries {}) {body : Code}
    (hw : walkFlow x pass n flow = .ok (body, s)) (hleak : ∀ v, body.HandsOn x v → leak v) :
    (∀ v ∈ body.free [], v ∈ (paramsOf n).map fun p => p.2.2) ∧ body.Handed leak := by
  obtain ⟨hn, he⟩ := (Script.mem_entries hb).mp (Script.mem_of_mem_flows hf)
  have hlaid := (Script.flows_entries hb).1 _ hf
  have hstart : Sighted leak [(paramsOf n).map fun p => p.2.2] (initial n).scopes := by
    rw [initial_scopes]
    refine .cons ⟨fun v hv => ?_, fun slot value hm v hv => ?_, fun v hv => (nomatch hv)⟩ .nil
    · rw [Code.declared, List.append_nil] at hv
      obtain ⟨p, hp, rfl⟩ := List.mem_map.mp hv
      exact isVariable_of_mem_params hb hports hn he hp
    · obtain ⟨p, hp, heq⟩ := List.mem_map.mp (List.mem_reverse.mp hm)
      cases heq
      obtain rfl := List.mem_singleton.mp hv
      exact ⟨.inl (List.mem_map.mpr ⟨p, hp, rfl⟩), .inl rfl⟩
  have hdone : hoisted (initial n) = .done := by simp only [Walk.hoisted, initial_scopes]
  obtain ⟨hfits, hhanded, hend⟩ := ((Walk.scoping hb hports leak pass).parts flow hw _ hlaid hleak _ []
    hstart).1 ⟨(n.outputs.filter (·.port.kind == .exec)).map Socket.name, by
      rw [List.map_map]; rfl⟩ hdone
  refine ⟨fun v hv => ?_, hhanded⟩
  -- at the end the scope of the function is the only one, and nothing waits in it
  have hvis := hfits.free v hv
  obtain ⟨scopes, counter, reads⟩ := s
  cases scopes with
  | nil => cases hvis
  | cons sc ss =>
    rcases hvis with hv | hv | hv
    · exact hv
    · have hend : sc.hoisted = .done := hend
      rw [hend] at hv
      cases hv
    · exact absurd hv.1 (by simp [Visible])

/-- **A variable is used where its declaration reaches.**  Let the script of a graph over the built-in
catalog be generated, where every node carries the ports of its definition.  In the body of every
function, the inputs of each node, the value of each temporary and the text of each line mention only
parameters of the function and variables that are declared above, in the same block or in one that
encloses it. -/
theorem EntryFunction.uses_in_scope {indent moduleId text : String}
    (hbuild : Index.build .builtin nodes connections = .ok x)
    (hgen : Script.generate .builtin indent moduleId nodes connections = .ok text)
    (hports : ∀ node ∈ nodes, Catalog.builtin.Furnishes node) :
    ∃ fs, Script.functions x moduleId = .ok fs ∧
      (nodes ≠ [] → text = Script.text indent moduleId fs) ∧
      ∀ f ∈ fs, ∀ v ∈ f.body.free [], v ∈ f.params.map Prod.snd := by
  have hb := Index.built_of_build hbuild
  obtain ⟨fs, hfs, htext⟩ := Script.functions_of_generate hbuild hgen
  refine ⟨fs, hfs, htext, fun f hf v hv => ?_⟩
  obtain ⟨⟨n, flow⟩, hmem, hmake⟩ := exists_of_mem_mapM hfs hf
  obtain ⟨-, recorded, last, -, hlast, -, hparams, -⟩ := make_ok hmake
  rw [hparams, List.map_map]
  have hleak : ∀ u, f.body.HandsOn x u → True := fun _ _ => trivial
  exact (body_fits hb hports hmem hlast hleak).1 v hv

end

/-- A thread that is started in a loop: it reads the index of the loop, a parameter and a number that
is also read behind the loop. -/
def EntryFunction.jobNodes : List Node :=
  [{ id := "spawn", nodeType := "on-player-respawned" }, { id := "loop", nodeType := "loop-for" },
   { id := "job", nodeType := "thread" }, { id := "heal", nodeType := "set-health" },
   { id := "sum", nodeType := "math-add" }, { id := "roll", nodeType := "math-random-int" },
   { id := "note", nodeType := "print" }]

def EntryFunction.jobConnections : List Connection :=
  [⟨"c0", ⟨"spawn", "output_0"⟩, ⟨"loop", "input_0"⟩⟩,
   ⟨"c1", ⟨"loop", "output_0"⟩, ⟨"job", "input_0"⟩⟩,
   ⟨"c2", ⟨"job", "output_0"⟩, ⟨"heal", "input_0"⟩⟩,
   ⟨"c3", ⟨"loop", "output_2"⟩, ⟨"note", "input_0"⟩⟩,
   ⟨"c4", ⟨"spawn", "output_1"⟩, ⟨"heal", "input_1"⟩⟩,
   ⟨"c5", ⟨"sum", "output_0"⟩, ⟨"heal", "input_2"⟩⟩,
   ⟨"c6", ⟨"roll", "output_0"⟩, ⟨"sum", "input_0"⟩⟩,
   ⟨"c7", ⟨"loop", "output_1"⟩, ⟨"sum", "input_1"⟩⟩,
   ⟨"c8", ⟨"roll", "output_0"⟩, ⟨"note", "input_1"⟩⟩]

/-- The number is declared in front of the loop, and the thread is handed all it reads. -/
theorem EntryFunction.job_functions : ∃ x fs f t,
    Index.build .builtin jobNodes jobConnections = .ok x ∧ Script.functions x "demo" = .ok fs ∧
      f ∈ fs ∧ "player" ∈ f.body.free [] ∧ t ∈ f.body.threads ∧
      t.captures = ["player", "rand1", "i0"] := by
  have key : (Index.build .builtin jobNodes jobConnections).toOption.any (fun x =>
      (Script.functions x "demo").toOption.any fun fs => fs.any fun f =>
        (f.body.free []).contains "player" &&
          f.body.threads.any (·.captures == ["player", "rand1", "i0"])) = true := by
    rw [Index.build, Index.addNode_builtin]
    decide +kernel
  obtain ⟨x, fs, hx, hfs, -, key⟩ := Script.exists_of_run (List.cons_ne_nil _ _) key "\t"
  obtain ⟨f, hf, key⟩ := List.any_eq_true.mp key
  rw [Bool.and_eq_true, List.contains_iff_mem] at key
  obtain ⟨t, ht, hcaptures⟩ := List.any_eq_true.mp key.2
  exact ⟨x, fs, f, t, hx, hfs, hf, key.1, ht, beq_iff_eq.mp hcaptures⟩

theorem EntryFunction.job_furnished : ∀ node ∈ jobNodes, Catalog.builtin.Furnishes node :=
  Catalog.furnishes_of_isEmpty (by decide)

/-- Only the parameter is used from outside. -/
theorem EntryFunction.uses_in_scope_job : ∃ x text fs f,
    Index.build .builtin jobNodes jobConnections = .ok x ∧
      Script.generate .builtin "\t" "demo" jobNodes jobConnections = .ok text ∧
      (∀ node ∈ jobNodes, Catalog.builtin.Furnishes node) ∧
      Script.functions x "demo" = .ok fs ∧ f ∈ fs ∧ "player" ∈ f.body.free [] ∧
      ∀ v ∈ f.body.free [], v ∈ f.params.map Prod.snd := by
  obtain ⟨x, fs, f, -, hx, hfs, hf, hplayer, -⟩ := job_functions
  have htext := Script.generate_of_functions hx (by simp [jobNodes]) hfs "\t"
  obtain ⟨fs', hfs', -, hall⟩ := uses_in_scope hx htext job_furnished
  obtain rfl := Except.ok.inj (hfs.symm.trans hfs')
  exact ⟨x, _, fs, f, hx, htext, job_furnished, hfs, hf, hplayer, hall f hf⟩

end VisualScript
