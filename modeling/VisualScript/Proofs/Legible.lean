import VisualScript.Proofs.Placing

/-!
# Proofs — Legible

When the reading of a value succeeds.  `Resolvable` says which nodes take part; here their recipes,
literals and outputs are looked at as well, so that a value that is legible from the slots in scope
can be read in either pass.

* `Supply`: which inputs of a node there are, and which of them have a value.
* `Evaluable`: the evaluation of a node succeeds once its sources have been read.
* `Legible`: a value is bound, or its node can be evaluated and the sources of the node are legible.
* `Evaluation.legible_of_read`: what a pass reads is legible from what it finds bound, and so is
  every slot it binds on the way.
-/

namespace VisualScript

open Evaluation Scopes

/-! ### Supply -/

/-- The inputs of a node, each with whether it has a value. -/
abbrev Supply := List (String × Bool)

/-- Which of the inputs have a value. -/
def Supply.ofInputs (inputs : Inputs) : Supply := inputs.map fun (i, v) => (i, v.isSome)

/-- What the data inputs of a node supply when `valued` says which sources have a value. -/
def Supply.gather (x : Index) (n : PlacedNode) (valued : Endpoint → Bool) :
    List PortTemplate → Supply → Supply
  | [],      supply => supply
  | t :: ts, supply =>
      if t.kind ≠ .data then gather x n valued ts supply
      else gather x n valued ts (Assoc.set t.name (((source? x n t).map valued).getD true) supply)

/-- Every input of the first supply is in the second, with a value if it has one in the first. -/
def Supply.Le (a b : Supply) : Prop :=
  ∀ i v, a.lookup i = some v → ∃ w, b.lookup i = some w ∧ (v = true → w = true)

/-- The supply is enough for an outline. -/
structure Outline.Supplied (o : Outline) (supply : Supply) : Prop where
  inputs  : ∀ i ∈ o.inputs, (supply.lookup i).isSome
  failure : o.failure = none
  copies  : ∀ name i, (name, Output.copy i) ∈ o.outputs → supply.lookup i = some true

namespace Supply

theorem le_refl (a : Supply) : a.Le a := fun _ v h => ⟨v, h, id⟩

theorem Le.trans {a b c : Supply} (h₁ : a.Le b) (h₂ : b.Le c) : a.Le c := by
  intro i v hi
  obtain ⟨w, hw, hvw⟩ := h₁ i v hi
  obtain ⟨u, hu, hwu⟩ := h₂ i w hw
  exact ⟨u, hu, hwu ∘ hvw⟩

theorem Le.set {a b : Supply} (h : a.Le b) (name : String) {v w : Bool}
    (hvw : v = true → w = true) : Supply.Le (Assoc.set name v a) (Assoc.set name w b) := by
  intro i u hi
  rw [Assoc.lookup_set] at hi ⊢
  split at hi
  · cases hi
    exact ⟨w, by simp [*], hvw⟩
  · rename_i hne
    simpa [hne] using h i u hi

theorem lookup_ofInputs (inputs : Inputs) (i : String) :
    (ofInputs inputs).lookup i = (inputs.lookup i).map Option.isSome := by
  induction inputs with
  | nil => rfl
  | cons p inputs ih =>
    obtain ⟨k, v⟩ := p
    simp only [ofInputs, List.map_cons, List.lookup_cons] at ih ⊢
    cases i == k with
    | true => rfl
    | false => exact ih

theorem ofInputs_set (name : String) (v : Option Expr) : ∀ inputs : Inputs,
    ofInputs (Assoc.set name v inputs) = Assoc.set name v.isSome (ofInputs inputs)
  | [] => rfl
  | (k, u) :: inputs => by
    simp only [Assoc.set, ofInputs, List.map_cons]
    split
    · rfl
    · exact congrArg _ (ofInputs_set name v inputs)

end Supply

namespace Outline.Supplied

variable {o : Outline} {inputs : Inputs} {supply : Supply}

theorem mono {supply' : Supply} (h : o.Supplied supply) (hle : supply.Le supply') :
    o.Supplied supply' := by
  refine ⟨fun i hi => ?_, h.failure, fun name i hm => ?_⟩
  · obtain ⟨v, hv⟩ := Option.isSome_iff_exists.mp (h.inputs i hi)
    obtain ⟨w, hw, -⟩ := hle i v hv
    simp [hw]
  · obtain ⟨w, hw, hvw⟩ := hle i true (h.copies name i hm)
    rw [hw, hvw rfl]

/-- An outline that is filled in has been supplied. -/
theorem of_emit {s : State} {r : Emission × State} (h : emit o inputs s = .ok r) :
    o.Supplied (.ofInputs inputs) := by
  obtain ⟨em, s'⟩ := r
  obtain ⟨-, -, hout, hin⟩ := emit_ok h
  refine ⟨fun i hi => ?_, ?_, fun name i hm => ?_⟩
  · simpa [Supply.lookup_ofInputs] using hin i hi
  · unfold emit at h
    split at h
    · cases h
    · cases h
    · assumption
  · obtain ⟨v, -, hv⟩ := mem_of_mapM_ok hout hm
    simp only [outputValue] at hv
    split at hv
    · rename_i e he
      simp [Supply.lookup_ofInputs, he]
    · cases hv

theorem mapM_outputValue (h : o.Supplied (.ofInputs inputs)) (vars : List String) :
    ∃ vs, o.outputs.mapM (outputValue inputs vars) = .ok vs := by
  have hc := h.copies
  generalize o.outputs = outs at hc
  induction outs with
  | nil => exact ⟨[], rfl⟩
  | cons out outs ih =>
    obtain ⟨vs, hvs⟩ := ih fun name i hm => hc name i (.tail _ hm)
    obtain ⟨v, hv⟩ : ∃ v, outputValue inputs vars out = .ok v := by
      obtain ⟨name, out⟩ := out
      cases out with
      | expr t => exact ⟨_, rfl⟩
      | copy i =>
        have := hc name i (.head _)
        rw [Supply.lookup_ofInputs, Option.map_eq_some_iff] at this
        obtain ⟨_ | e, he, hsome⟩ := this
        · cases hsome
        · exact ⟨(name, e), by simp [outputValue, he]⟩
    exact ⟨v :: vs, by rw [List.mapM_cons, hv, hvs]; rfl⟩

/-- An outline that is supplied can be filled in. -/
theorem emit (h : o.Supplied (.ofInputs inputs)) (s : State) :
    ∃ em s', Evaluation.emit o inputs s = .ok (em, s') := by
  have hnone : o.inputs.find? (fun i => (inputs.lookup i).isNone) = none := by
    refine List.find?_eq_none.mpr fun i hi => ?_
    have := h.inputs i hi
    rw [Supply.lookup_ofInputs, Option.isSome_map] at this
    simpa [Option.isNone_iff_eq_none] using Option.isSome_iff_ne_none.mp this
  obtain ⟨vs, hvs⟩ := h.mapM_outputValue (s.freshVars o.fresh).1
  refine ⟨⟨(s.freshVars o.fresh).1, vs⟩, (s.freshVars o.fresh).2, ?_⟩
  unfold Evaluation.emit
  rw [hnone, h.failure]
  simp only [hvs]
  rfl

end Outline.Supplied

/-! ### Legible values -/

/-- The slot is one of those that hold the outputs of a node. -/
def PlacedNode.Holds (n : PlacedNode) (names : List String) (slot : Endpoint) : Prop :=
  ∃ name ∈ names, ∃ p, n.output? name = some p ∧ slot = ⟨n.node.id, p.id⟩

/-- The node of an output port can be evaluated once its sources have been read, and so can the
port: the reading gives a value if `value` says so. -/
structure Evaluable (x : Index) (e : Endpoint) (n : PlacedNode) (valued : Endpoint → Bool)
    (value : Bool) : Prop where
  node     : x.node? e.node = some n
  data     : n.hasExec = false
  literals : ∀ t ∈ n.definition.inputs, t.kind = .data → source? x n t = none →
    ∃ v, literal n t = .ok v
  outline  : ∃ r, Recipe.ofType? n.node.nodeType = some r ∧
    (r.outline x n).Supplied (.gather x n valued n.definition.inputs []) ∧
    x.portName e ∈ (r.outline x n).outputs.map Prod.fst ∧
    (value = true → isInlined x n = true ∨ n.Holds ((r.outline x n).outputs.map Prod.fst) e)

/-- The output port can be read where the slots `B` are bound; the reading gives a value if `value`
says so. -/
inductive Legible (x : Index) (B : Endpoint → Prop) : Endpoint → (value : Bool) → Prop where
  | bound {e : Endpoint} {value : Bool} (h : B e) : Legible x B e value
  | data {e : Endpoint} {n : PlacedNode} {value : Bool} (valued : Endpoint → Bool)
      (node : Evaluable x e n valued value)
      (sources : ∀ e', Feeds x n e' → Legible x B e' (valued e')) : Legible x B e value

namespace Legible

variable {x : Index} {B B' : Endpoint → Prop} {e : Endpoint} {value : Bool}

theorem weaken (h : Legible x B e true) : Legible x B e value := by
  cases h with
  | bound h => exact .bound h
  | data valued hn hs =>
    obtain ⟨r, hr, hsup, hname, hval⟩ := hn.outline
    exact .data _ ⟨hn.node, hn.data, hn.literals, r, hr, hsup, hname, fun _ => hval rfl⟩ hs

theorem trans (h : Legible x B e value) (hB : ∀ e, B e → Legible x B' e true) :
    Legible x B' e value := by
  induction h with
  | bound h => exact (hB _ h).weaken
  | data valued hn _ ih => exact .data valued hn ih

theorem mono (h : Legible x B e value) (hB : ∀ e, B e → B' e) : Legible x B' e value :=
  h.trans fun e he => .bound (hB e he)

end Legible

/-! ### What is read is legible -/

theorem Scopes.drop_modifyTop (f : Scope → Scope) (ss : Scopes) (k : Nat) :
    (modifyTop f ss).drop (k + 1) = ss.drop (k + 1) := by
  cases ss <;> rfl

theorem Scopes.binds_drop_bind {ss : Scopes} {slot e : Endpoint} {value : Expr} {k : Nat}
    (h : Binds ((bind e value ss).drop k) slot) : k = 0 ∧ slot = e ∨ Binds (ss.drop k) slot := by
  cases k with
  | zero => exact (binds_bind h).imp_left fun h => ⟨rfl, h⟩
  | succ k => rw [bind, drop_modifyTop] at h; exact .inr h

namespace Evaluation

/-- Declaring the temporaries of a node binds the slots of its outputs in the innermost scope. -/
theorem binds_drop_declare {n : PlacedNode} {slot : Endpoint} {k : Nat}
    {outputs : List (String × Expr)} {s : State} :
    Binds ((declare n outputs s).2.scopes.drop k) slot →
      k = 0 ∧ n.Holds (outputs.map Prod.fst) slot ∨ Binds (s.scopes.drop k) slot :=
  declare_induct (P := fun t => Binds (t.scopes.drop k) slot →
      k = 0 ∧ n.Holds (outputs.map Prod.fst) slot ∨ Binds (s.scopes.drop k) slot)
    .inr fun o ho p hp _ _ ht h => (binds_drop_bind h).elim
      (fun hs => .inl ⟨hs.1, o.1, List.mem_map_of_mem ho, p, hp, hs.2⟩) ht

theorem binds_drop_fetch {s : State} {e slot : Endpoint} {k : Nat} :
    Binds ((s.fetch e).2.scopes.drop k) slot ↔ Binds (s.scopes.drop k) slot :=
  binds_sameAs (List.forall₂_drop k (s.fetch_sameAs e))

/-- Inputs that have been resolved where the slots `B` are bound: their sources are legible, and they
supply what their sources have to give. -/
structure Gathered (x : Index) (n : PlacedNode) (B : Endpoint → Prop) (ts : List PortTemplate)
    (inputs inputs' : Inputs) : Prop where
  sources  : ∀ t ∈ ts, t.kind = .data → ∀ e, source? x n t = some e → Legible x B e false
  literals : ∀ t ∈ ts, t.kind = .data → source? x n t = none → ∃ v, literal n t = .ok v
  supply   : ∀ valued : Endpoint → Bool, (∀ e, Legible x B e true → valued e = true) →
    ∀ supply, (Supply.ofInputs inputs).Le supply →
      (Supply.ofInputs inputs').Le (.gather x n valued ts supply)

namespace Gathered

variable {x : Index} {n : PlacedNode} {B : Endpoint → Prop} {t : PortTemplate}
  {ts : List PortTemplate} {inputs inputs' : Inputs}

theorem nil : Gathered x n B [] inputs inputs := ⟨by simp, by simp, fun _ _ _ h => h⟩

theorem skip (hk : t.kind ≠ .data) (h : Gathered x n B ts inputs inputs') :
    Gathered x n B (t :: ts) inputs inputs' := by
  refine ⟨fun t' ht' hk' => ?_, fun t' ht' hk' => ?_, fun valued hv supply hs => ?_⟩
  · rcases List.mem_cons.mp ht' with rfl | ht'
    · exact absurd hk' hk
    · exact h.sources t' ht' hk'
  · rcases List.mem_cons.mp ht' with rfl | ht'
    · exact absurd hk' hk
    · exact h.literals t' ht' hk'
  · rw [Supply.gather, if_pos hk]
    exact h.supply valued hv supply hs

theorem connected {B' : Endpoint → Prop} {e : Endpoint} {value : Option Expr} (hk : t.kind = .data)
    (he : source? x n t = some e) (hr : Legible x B e value.isSome)
    (hB : ∀ e, B' e → Legible x B e true)
    (h : Gathered x n B' ts (Assoc.set t.name value inputs) inputs') :
    Gathered x n B (t :: ts) inputs inputs' := by
  have hfalse : Legible x B e false := by
    cases value with
    | none => exact hr
    | some v => exact hr.weaken
  refine ⟨fun t' ht' hk' e' he' => ?_, fun t' ht' hk' he' => ?_, fun valued hv supply hs => ?_⟩
  · rcases List.mem_cons.mp ht' with rfl | ht'
    · rw [he] at he'
      cases he'
      exact hfalse
    · exact (h.sources t' ht' hk' e' he').trans hB
  · rcases List.mem_cons.mp ht' with rfl | ht'
    · rw [he] at he'
      cases he'
    · exact h.literals t' ht' hk' he'
  · rw [Supply.gather, if_neg (by simpa using hk), he]
    refine h.supply valued (fun e' he' => hv e' (he'.trans hB)) _ ?_
    rw [Supply.ofInputs_set]
    exact hs.set _ fun hsome => hv e (hsome ▸ hr)

theorem literal {v : Expr} (hk : t.kind = .data) (he : source? x n t = none)
    (hv : Evaluation.literal n t = .ok v)
    (h : Gathered x n B ts (Assoc.set t.name (some v) inputs) inputs') :
    Gathered x n B (t :: ts) inputs inputs' := by
  refine ⟨fun t' ht' hk' e' he' => ?_, fun t' ht' hk' he' => ?_, fun valued hval supply hs => ?_⟩
  · rcases List.mem_cons.mp ht' with rfl | ht'
    · rw [he] at he'
      cases he'
    · exact h.sources t' ht' hk' e' he'
  · rcases List.mem_cons.mp ht' with rfl | ht'
    · exact ⟨v, hv⟩
    · exact h.literals t' ht' hk' he'
  · rw [Supply.gather, if_neg (by simpa using hk), he]
    refine h.supply valued hval _ ?_
    rw [Supply.ofInputs_set]
    exact hs.set _ fun _ => rfl

theorem trans {B' : Endpoint → Prop} (h : Gathered x n B ts inputs inputs')
    (hB : ∀ e, B e → Legible x B' e true) : Gathered x n B' ts inputs inputs' :=
  ⟨fun t ht hk e he => (h.sources t ht hk e he).trans hB, h.literals,
    fun valued hv => h.supply valued fun e he => hv e (he.trans hB)⟩

open Classical in
/-- Which sources have a value. -/
theorem valued (h : Gathered x n B n.definition.inputs [] inputs') :
    ∃ valued, (∀ e, Feeds x n e → Legible x B e (valued e)) ∧
      (Supply.ofInputs inputs').Le (.gather x n valued n.definition.inputs []) := by
  refine ⟨fun e => decide (Legible x B e true), fun e ⟨t, ht, hk, he⟩ => ?_,
    h.supply _ (fun e he => by simp [he]) [] (Supply.le_refl _)⟩
  by_cases hl : Legible x B e true
  · simp [hl]
  · simpa [hl] using h.sources t ht hk e he

/-- A node that has been evaluated is legible at every output it hands on. -/
theorem legible {e : Endpoint} {r : Recipe} {s s' : State} {em : Emission} {v : Expr}
    (h : Gathered x n B n.definition.inputs [] inputs') (hn : x.node? e.node = some n)
    (hx : n.hasExec = false) (hr : Recipe.ofType? n.node.nodeType = some r)
    (hem : emit (r.outline x n) inputs' s = .ok (em, s'))
    (hv : em.outputs.lookup (x.portName e) = some v) (value : Bool)
    (hvalue : value = true → isInlined x n = true ∨ n.Holds (em.outputs.map Prod.fst) e) :
    Legible x B e value := by
  obtain ⟨-, -, hout, -⟩ := emit_ok hem
  have hnames := outputs_fst hout
  obtain ⟨valued, hs, hle⟩ := h.valued
  refine .data valued ⟨hn, hx, h.literals, r, hr, (Outline.Supplied.of_emit hem).mono hle, ?_,
    hnames ▸ hvalue⟩ hs
  exact hnames ▸ List.mem_map.mpr ⟨_, Assoc.mem_of_lookup hv, rfl⟩

end Gathered

/-- What the recording pass reads is legible from what it finds bound, and every slot it binds on
the way is legible from what was bound at the level of the slot. -/
theorem legible_of_read {catalog : Catalog} {nodes : List Node} {connections : List Connection}
    {x : Index} (hb : Index.Built catalog nodes connections x) :
    Fetching x .recording
      (fun _ e s value _ s' => Legible x (Binds s.scopes) e value.isSome ∧
        ∀ k slot, Binds (s'.scopes.drop k) slot → Legible x (Binds (s.scopes.drop k)) slot true)
      (fun _ n ts inputs s inputs' _ s' => Gathered x n (Binds s.scopes) ts inputs inputs' ∧
        ∀ k slot, Binds (s'.scopes.drop k) slot → Legible x (Binds (s.scopes.drop k)) slot true) := by
  constructor
  case bound =>
    intro pending e s n value ss hn hl
    rw [note_scopes] at hl
    exact ⟨.bound (binds_of_lookup? hl), fun k slot h =>
      .bound ((binds_sameAs (List.forall₂_drop k (lookup?_sameAs hl))).mp h)⟩
  case inline =>
    intro pending e s n r inputs code s₁ em s₂ value hn _ hx _ hi hr _ hI hem hv
    simp only [note_scopes] at hI
    refine ⟨hI.1.legible hn hx hr hem hv _ fun _ => .inl hi, ?_⟩
    rw [emit_scopes hem]
    exact hI.2
  case temporary =>
    intro pending e s n r hidden inputs code s₁ em s₂ value hn _ hx _ hi hr hhidden _ hI hem hv made
      placed
    obtain rfl : hidden = 0 := by simpa [placement] using hhidden
    simp only [State.lower_zero, note_scopes] at hI
    have hslots : ∀ k slot, Binds ((placed.2.fetch e).2.scopes.drop k) slot →
        Legible x (Binds (s.scopes.drop k)) slot true := by
      intro k slot h
      rcases binds_drop_declare (binds_drop_fetch.mp h) with ⟨rfl, hs⟩ | h
      · obtain ⟨name, hm, p, hp, rfl⟩ := id hs
        obtain ⟨⟨name', v⟩, hmem, rfl⟩ := List.mem_map.mp hm
        have hnode : x.node? n.node.id = some n := (hb.node_id hn).symm ▸ hn
        obtain ⟨v, hv⟩ := Option.isSome_iff_exists.mp (Assoc.lookup_isSome_of_mem hmem)
        have hname : x.portName ⟨n.node.id, p.id⟩ = name' := hb.portName_output? hnode hp
        rw [← hname] at hv
        exact hI.1.legible hnode hx hr hem hv true fun _ => .inr hs
      · rw [emit_scopes hem] at h
        exact hI.2 k slot h
    refine ⟨?_, hslots⟩
    unfold State.fetch
    split
    · rename_i v ss hl
      refine hslots 0 e (binds_drop_fetch.mpr (binds_of_lookup? hl))
    · exact hI.1.legible hn hx hr hem hv _ (by simp)
  case nil => exact ⟨.nil, fun k slot h => .bound h⟩
  case skip => exact fun hk h => ⟨h.1.skip hk, h.2⟩
  case connected =>
    exact fun hk he hR _ hI => ⟨hI.1.connected hk he hR.1 (hR.2 0), fun k slot h =>
      (hI.2 k slot h).trans (hR.2 k)⟩
  case literal => exact fun hk he hv h => ⟨h.1.literal hk he hv, h.2⟩

end Evaluation

end VisualScript
