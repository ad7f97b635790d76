import VisualScript.Proofs.Following

/-!
# Proofs — Failing

Why code generation fails.  A failure of a pass is traced back to the place it comes from, with the
fuel and the state of the pass gone.

* `Unreadable`: a port has no value in scope, and its node must not or cannot be evaluated.
* `Blocked`: a literal or the outline of a node fails, or a value that the node needs cannot be
  read, or a node further up is blocked.
* `Script.failure_of_generate`: a checked graph from which no script comes has an entry whose flow
  holds a fault, or a node of the flow is blocked.
-/

namespace VisualScript

open Evaluation Scopes

/-! ### Values -/

/-- Why the output port of a node cannot be read where it is not bound; the nodes `pending` are
being evaluated. -/
inductive Unreadable (x : Index) (pending : List String) (e : Endpoint) (n : PlacedNode) :
    Fault → Prop where
  | outOfScope (exec : n.hasExec = true) :
      Unreadable x pending e n (.readOutOfScope (x.portName e) e.node)
  | again (data : n.hasExec = false) (under : e.node ∈ pending) :
      Unreadable x pending e n (.dataCycle e.node)
  | noRecipe (data : n.hasExec = false) (none : Recipe.ofType? n.node.nodeType = none) :
      Unreadable x pending e n (.noRecipe n.node.nodeType e.node)
  | notProduced (data : n.hasExec = false) :
      Unreadable x pending e n (.outputNotProduced (x.portName e) e.node)

/-- Why a node cannot be filled in while the nodes `pending` are being evaluated. -/
inductive Blocked (x : Index) (pass : Pass) :
    (pending : List String) → PlacedNode → Failure → Prop where
  | literal {pending : List String} {n : PlacedNode} {t : PortTemplate} {f : Failure}
      (mem : t ∈ n.definition.inputs) (data : t.kind = .data) (free : source? x n t = none)
      (fails : Evaluation.literal n t = .error f) : Blocked x pass pending n f
  | outline {pending : List String} {n : PlacedNode} {r : Recipe} {inputs : Inputs} {code : Code}
      {s s' : State} {f : Failure} (recipe : Recipe.ofType? n.node.nodeType = some r)
      (scopes : s.scopes ≠ [])
      (resolved : Resolved x pass pending n n.definition.inputs [] s inputs code s')
      (fails : emit (r.outline x n) inputs s' = .error f) : Blocked x pass pending n f
  | source {pending : List String} {n m : PlacedNode} {e : Endpoint} {f : Fault}
      (feeds : Feeds x n e) (node : x.node? e.node = some m) (fails : Unreadable x pending e m f) :
      Blocked x pass pending n (.fault f)
  | through {pending : List String} {n m : PlacedNode} {e : Endpoint} {f : Failure}
      (feeds : Feeds x n e) (node : x.node? e.node = some m) (data : m.hasExec = false)
      (fresh : e.node ∉ pending) (blocked : Blocked x pass (e.node :: pending) m f) :
      Blocked x pass pending n f

namespace Evaluation

variable {n : PlacedNode} {f : Failure} {s : State}

variable {catalog : Catalog} {nodes : List Node} {connections : List Connection} {x : Index}
  {pass : Pass} {fuel : Nat} {pending : List String}

/-- What stands behind every read that fails. -/
def Explains (x : Index) (pass : Pass) (fuel : Nat) (pending : List String) : Prop :=
  ∀ e n s f, x.node? e.node = some n → s.scopes ≠ [] → read x pass fuel pending e s = .error f →
    (∃ g, f = .fault g ∧ Unreadable x pending e n g) ∨
      n.hasExec = false ∧ e.node ∉ pending ∧ Blocked x pass (e.node :: pending) n f

/-- The inputs of a node are resolved one after the other; the first failure is a literal's or a
read's. -/
theorem Explains.resolve (h : Explains x pass fuel pending)
    (hb : Index.Built catalog nodes connections x) :
    ∀ (ts : List PortTemplate) (inputs : Inputs) (s : State),
      (∀ t ∈ ts, t ∈ n.definition.inputs) → s.scopes ≠ [] →
      resolve x n (read x pass fuel pending) ts inputs s = .error f → Blocked x pass pending n f
  | [], _, _, _, _, hr => by cases hr
  | t :: ts, inputs, s, hts, hne, hr => by
    have hts' : ∀ t' ∈ ts, t' ∈ n.definition.inputs := fun t' ht' => hts t' (.tail _ ht')
    rw [Evaluation.resolve] at hr
    split at hr
    · exact h.resolve hb ts inputs s hts' hne hr
    rename_i hk
    have hk : t.kind = .data := by simpa using hk
    split at hr
    · rename_i e he
      have hfeeds : Feeds x n e := ⟨t, hts t (.head _), hk, he⟩
      rcases bind_eq_error.mp hr with hr | ⟨⟨value, code, s₁⟩, h₁, hr⟩
      · obtain ⟨sock, hsock, -⟩ := hb.source_socket he
        obtain ⟨m, hm, -, -⟩ := Index.mem_of_socket? hsock
        rcases h e m s f hm hne hr with ⟨g, rfl, hg⟩ | ⟨hx, hp, hblocked⟩
        · exact .source hfeeds hm hg
        · exact .through hfeeds hm hx hp hblocked
      · rcases bind_eq_error.mp hr with hr | ⟨⟨inputs', more, s₂⟩, -, hr⟩
        · exact h.resolve hb ts _ s₁ hts' (((growing x pass).read _ h₁).1.ne_nil hne) hr
        · cases hr
    · rename_i he
      rcases bind_eq_error.mp hr with hr | ⟨value, -, hr⟩
      · exact .literal (hts t (.head _)) hk he hr
      · exact h.resolve hb ts _ s hts' hne hr

/-- A node whose evaluation fails is blocked, or it has no such output. -/
theorem Explains.evaluate {e : Endpoint} {r : Recipe}
    (h : Explains x pass fuel (e.node :: pending)) (hb : Index.Built catalog nodes connections x)
    (hx : n.hasExec = false) (hrec : Recipe.ofType? n.node.nodeType = some r)
    (hp : e.node ∉ pending) (hne : s.scopes ≠ [])
    (hev : (do
      let (inputs, code, s) ←
        Evaluation.resolve x n (read x pass fuel (e.node :: pending)) n.definition.inputs [] s
      let (emission, s) ← emit (r.outline x n) inputs s
      match emission.outputs.lookup (x.portName e) with
      | none       => throw (.fault (.outputNotProduced (x.portName e) e.node))
      | some value => return (emission.outputs, value, code, s) :
        Except Failure (List (String × Expr) × Expr × Code × State)) = .error f) :
    (∃ g, f = .fault g ∧ Unreadable x pending e n g) ∨
      n.hasExec = false ∧ e.node ∉ pending ∧ Blocked x pass (e.node :: pending) n f := by
  rcases bind_eq_error.mp hev with hr | ⟨⟨inputs, code, s₁⟩, hres, hev⟩
  · exact .inr ⟨hx, hp, h.resolve hb _ _ _ (fun _ ht => ht) hne hr⟩
  rcases bind_eq_error.mp hev with hem | ⟨⟨em, s₂⟩, -, hev⟩
  · exact .inr ⟨hx, hp, .outline hrec hne ⟨fuel, hres⟩ hem⟩
  simp only at hev
  split at hev
  · cases hev
    exact .inl ⟨_, rfl, .notProduced hx⟩
  · cases hev

theorem atLevel_error {level : Nat} {act : State → Except Failure (Code × State)}
    (h : atLevel level s act = .error f) : act (s.lower (top s.scopes - level)) = .error f := by
  unfold atLevel at h
  rcases bind_eq_error.mp h with h | ⟨⟨code, t⟩, -, h⟩
  · exact h
  · dsimp only at h
    split at h <;> cases h

/-- A read that fails stops at the node, or the node is to be evaluated. -/
theorem unreadable_or_fresh {e : Endpoint} (hn : x.node? e.node = some n)
    (h : read x pass fuel pending e s = .error f) :
    (∃ g, f = .fault g ∧ Unreadable x pending e n g) ∨
      lookup? e (note x pass n s).scopes = none ∧ n.hasExec = false ∧ e.node ∉ pending := by
  rw [read.eq_def] at h
  simp only [hn] at h
  split at h
  · cases h
  split at h
  · cases h
    exact .inl ⟨_, rfl, .outOfScope (by assumption)⟩
  rename_i hl hx
  have hx : n.hasExec = false := by simpa using hx
  split at h
  · cases h
    exact .inl ⟨_, rfl, .again hx (by assumption)⟩
  · exact .inr ⟨hl, hx, by assumption⟩

/-- **Why a read fails.**  Each node is evaluated once on the way to a value, so the fuel that
counts the nodes left is enough. -/
theorem explains_of_fuel (hb : Index.Built catalog nodes connections x) (pass : Pass) :
    ∀ (fuel : Nat) (pending : List String), x.remaining pending ≤ fuel →
      Explains x pass fuel pending := by
  intro fuel
  induction fuel with
  | zero =>
    intro pending hfuel e n s f hn hne hr
    obtain h | ⟨-, -, hp⟩ := unreadable_or_fresh hn hr
    · exact .inl h
    -- a node is left that is not being evaluated, so the fuel cannot be used up
    have hmem : e.node ∈ x.order := List.mem_map.mpr ⟨_, Index.mem_placed hn, rfl⟩
    have := Index.remaining_cons_lt hmem hp
    omega
  | succ fuel ih =>
    intro pending hfuel e n s f hn hne hr
    obtain h | ⟨hl, hx, hp⟩ := unreadable_or_fresh hn hr
    · exact .inl h
    have hmem : e.node ∈ x.order := List.mem_map.mpr ⟨_, Index.mem_placed hn, rfl⟩
    have hless := Index.remaining_cons_lt hmem hp
    have hexp : Explains x pass fuel (e.node :: pending) := ih _ (by omega)
    have hne' : (note x pass n s).scopes ≠ [] := by rwa [note_scopes]
    rw [read] at hr
    simp only [hn, hl, hx, hp, Bool.false_eq_true, if_false] at hr
    cases hrec : Recipe.ofType? n.node.nodeType with
    | none =>
      simp only [hrec] at hr
      cases hr
      exact .inl ⟨_, rfl, .noRecipe hx hrec⟩
    | some r =>
      simp only [hrec] at hr
      split at hr
      · rcases bind_eq_error.mp hr with hr | ⟨_, -, hr⟩
        · exact hexp.evaluate hb hx hrec hp hne' hr
        · cases hr
      · rcases bind_eq_error.mp hr with hr | ⟨⟨code, s₁⟩, -, hr⟩
        · rcases bind_eq_error.mp (atLevel_error hr) with hr | ⟨_, -, hr⟩
          · exact hexp.evaluate hb hx hrec hp (lower_ne_nil hne' _) hr
          · cases hr
        · dsimp only at hr
          split at hr <;> cases hr

end Evaluation

/-! ### Flows -/

mutual

/-- The faults at which the chain stops. -/
def Chain.faults : Chain → List Fault
  | .done            => []
  | .halt f          => [f]
  | .step _ own rest => own.faults ++ rest.faults

def Parts.faults : Parts → List Fault
  | .done                   => []
  | .line _ rest            => rest.faults
  | .follow body rest       => body.faults ++ rest.faults
  | .block _ _ _ body rest  => body.faults ++ rest.faults
  | .thread _ _ _ body rest => body.faults ++ rest.faults

end

/-- Why a pass over the given nodes, with the given faults among them, does not come to its end. -/
inductive Walk.Stops (x : Index) (pass : Pass) (faults : List Fault) (ids : List String) :
    Failure → Prop where
  | fault {f : Fault} (mem : f ∈ faults) : Stops x pass faults ids (.fault f)
  | missing {id : String} (mem : id ∈ ids) (none : x.node? id = none) :
      Stops x pass faults ids (.fault (.execReentry id))
  | noRecipe {id : String} {n : PlacedNode} (mem : id ∈ ids) (node : x.node? id = some n)
      (none : Recipe.ofType? n.node.nodeType = none) :
      Stops x pass faults ids (.fault (.noRecipe n.node.nodeType n.node.id))
  | blocked {id : String} {n : PlacedNode} {f : Failure} (mem : id ∈ ids)
      (node : x.node? id = some n) (blocked : Blocked x pass [] n f) : Stops x pass faults ids f

namespace Walk

variable {catalog : Catalog} {nodes : List Node} {connections : List Connection} {x : Index}
  {pass : Pass}

theorem Stops.mono {faults faults' : List Fault} {ids ids' : List String} {f : Failure}
    (h : Stops x pass faults ids f) (hf : ∀ g ∈ faults, g ∈ faults')
    (hi : ∀ id ∈ ids, id ∈ ids') : Stops x pass faults' ids' f := by
  cases h with
  | fault hm => exact .fault (hf _ hm)
  | missing hm hn => exact .missing (hi _ hm) hn
  | noRecipe hm hn hr => exact .noRecipe (hi _ hm) hn hr
  | blocked hm hn h => exact .blocked (hi _ hm) hn h

theorem Stops.left {as bs : List Fault} {is js : List String} {f : Failure}
    (h : Stops x pass as is f) : Stops x pass (as ++ bs) (is ++ js) f :=
  h.mono (fun _ => List.mem_append_left _) fun _ => List.mem_append_left _

theorem Stops.right {as bs : List Fault} {is js : List String} {f : Failure}
    (h : Stops x pass bs js f) : Stops x pass (as ++ bs) (is ++ js) f :=
  h.mono (fun _ => List.mem_append_right _) fun _ => List.mem_append_right _

/-- A node that cannot be entered has no recipe or is blocked. -/
theorem enter_error (hb : Index.Built catalog nodes connections x) {n : PlacedNode} {s : State}
    {f : Failure} (hne : s.scopes ≠ []) (h : enter x pass n s = .error f) :
    Recipe.ofType? n.node.nodeType = none ∧ f = .fault (.noRecipe n.node.nodeType n.node.id) ∨
      Blocked x pass [] n f := by
  unfold enter at h
  split at h
  · rename_i hr
    cases h
    exact .inl ⟨hr, rfl⟩
  · rename_i r hr
    have hexp := explains_of_fuel hb pass x.placed.length [] (by rw [Index.remaining_nil])
    rcases bind_eq_error.mp h with h | ⟨⟨inputs, code, s₁⟩, hin, h⟩
    · exact .inr (hexp.resolve hb _ _ _ (fun _ ht => ht) hne h)
    rcases bind_eq_error.mp h with h | ⟨⟨em, s₂⟩, -, h⟩
    · exact .inr (.outline hr hne ⟨_, hin⟩ h)
    · cases h

theorem enter_ne_nil {n : PlacedNode} {s s' : State} {filling : Filling} {code : Code}
    (hne : s.scopes ≠ []) (h : enter x pass n s = .ok (filling, code, s')) : s'.scopes ≠ [] := by
  obtain ⟨r, s₁, em, s₂, -, hin, hem, -, rfl⟩ := enter_ok h
  refine (bindOutputs_grow n em.outputs s₂).ne_nil ?_
  rw [emit_scopes hem]
  exact ((growing x pass).inputs hin).1.ne_nil hne

theorem setHoisted_ne_nil {s : State} (hne : s.scopes ≠ []) (code : Code) :
    (setHoisted s code).scopes ≠ [] := by
  obtain ⟨sc, ss, hs⟩ := List.exists_cons_of_ne_nil hne
  simp [setHoisted, hs, modifyTop]

theorem openBlock_ne_nil (n : PlacedNode) (key : BlockKey) (isThread : Bool)
    (bindings : List (String × Nat)) (vars : List String) (s : State) :
    (openBlock n key isThread bindings vars s).scopes ≠ [] :=
  (bindOutputs_grow n _ _).ne_nil (by simp)

mutual

/-- **Why a pass over a chain fails.** -/
theorem chain_error (hb : Index.Built catalog nodes connections x) {f : Failure} :
    ∀ (c : Chain) {s : State}, s.scopes ≠ [] → chain x pass c s = .error f →
      Stops x pass c.faults c.nodes f
  | .done, _, _, h => by
    rw [chain] at h
    cases h
  | .halt g, _, _, h => by
    rw [chain] at h
    cases h
    exact .fault (.head _)
  | .step id own rest, s, hne, h => by
    rw [chain] at h
    split at h
    · rename_i hn
      cases h
      exact .missing (.head _) hn
    rename_i n hn
    rcases bind_eq_error.mp h with h | ⟨⟨filling, before, s₁⟩, henter, h⟩
    · rcases enter_error hb hne h with ⟨hr, rfl⟩ | h
      · exact .noRecipe (.head _) hn hr
      · exact .blocked (.head _) hn h
    -- the node has been entered; the failure is in its parts or behind it
    have hne₁ := setHoisted_ne_nil (enter_ne_nil hne henter) .done
    have hbehind : Stops x pass (own.faults ++ rest.faults) (own.nodes ++ rest.nodes) f := by
      rcases bind_eq_error.mp h with h | ⟨⟨code, s₂⟩, hown, h⟩
      · exact (parts_error hb own hne₁ h).left
      have hne₂ := ((writing x pass hb.node_id).parts own hown).1.ne_nil hne₁
      rcases bind_eq_error.mp h with h | ⟨⟨after, s₃⟩, -, h⟩
      · exact (chain_error hb rest (setHoisted_ne_nil hne₂ _) h).right
      · cases h
    exact hbehind.mono (fun _ hg => hg) fun _ => List.mem_cons_of_mem _

theorem parts_error (hb : Index.Built catalog nodes connections x) {n : PlacedNode}
    {filling : Filling} {f : Failure} :
    ∀ (p : Parts) {s : State}, s.scopes ≠ [] → parts x pass n filling p s = .error f →
      Stops x pass p.faults p.nodes f
  | .done, _, _, h => by
    rw [parts] at h
    cases h
  | .line t rest, _, hne, h => by
    rw [parts] at h
    rcases bind_eq_error.mp h with h | ⟨_, -, h⟩
    · exact parts_error hb rest hne h
    · cases h
  | .follow body rest, _, hne, h => by
    rw [parts] at h
    rcases bind_eq_error.mp h with h | ⟨⟨code, s₁⟩, hbody, h⟩
    · exact (chain_error hb body hne h).left
    have hne₁ := ((writing x pass hb.node_id).chain body hbody).1.1.ne_nil hne
    rcases bind_eq_error.mp h with h | ⟨_, -, h⟩
    · exact (parts_error hb rest hne₁ h).right
    · cases h
  | .block port bindings tail body rest, s, hne, h => by
    rw [parts] at h
    rcases bind_eq_error.mp h with h | ⟨⟨code, s₁⟩, hbody, h⟩
    · exact (chain_error hb body (openBlock_ne_nil _ _ _ _ _ _) h).left
    have hgrow := ((writing x pass hb.node_id).chain body hbody).1.1
    rcases bind_eq_error.mp h with h | ⟨_, -, h⟩
    · exact (parts_error hb rest ((closeBlock_grow hgrow).ne_nil hne) h).right
    · cases h
  | .thread port name isConnected body rest, s, hne, h => by
    rw [parts.eq_def] at h
    dsimp only at h
    split at h
    · rcases bind_eq_error.mp h with h | ⟨_, -, h⟩
      · exact (parts_error hb rest hne h).right
      · cases h
    rcases bind_eq_error.mp h with h | ⟨⟨code, s₁⟩, hbody, h⟩
    · exact (chain_error hb body (openBlock_ne_nil _ _ _ _ _ _) h).left
    have hgrow := ((writing x pass hb.node_id).chain body hbody).1.1
    rcases bind_eq_error.mp h with h | ⟨_, -, h⟩
    · exact (parts_error hb rest ((closeBlock_grow hgrow).ne_nil hne) h).right
    · cases h

end

end Walk

/-! ### Faults of a flow -/

/-- The connections of a checked graph end at nodes of the graph. -/
theorem Index.Built.node_of_mem_targets {catalog : Catalog} {nodes : List Node}
    {connections : List Connection} {x : Index} (hb : Index.Built catalog nodes connections x)
    {e : Endpoint} {a : String} (h : a ∈ x.targets e) : (x.node? a).isSome := by
  obtain ⟨c, hc, rfl⟩ := List.mem_map.mp h
  rw [hb.outgoing, List.mem_filter] at hc
  obtain ⟨-, t, -, ht, -⟩ := hb.ends c hc.1
  obtain ⟨n, hn, -, -⟩ := Index.mem_of_socket? ht
  simp [hn]

namespace Flow

theorem isSome_of_mem_targets {catalog : Catalog} {nodes : List Node}
    {connections : List Connection} {x : Index} (hb : Index.Built catalog nodes connections x)
    {n : PlacedNode} {port a : String} (h : a ∈ targets x n port) : (x.node? a).isSome := by
  unfold targets at h
  split at h
  · exact hb.node_of_mem_targets h
  · cases h

/-- Control must not reach a certain node of the graph. -/
def Refused (x : Index) (f : Fault) : Prop :=
  ∃ p id, (x.node? id).isSome ∧ enter x p id = .error f

end Flow

theorem Item.part_faults {item : Item} {body : Chain} {rest : Parts}
    (h : item.port? = none → body = .done) :
    (item.part body rest).faults = body.faults ++ rest.faults := by
  cases item with
  | line t =>
    obtain rfl := h rfl
    rfl
  | _ => rfl

mutual

/-- A chain stops at nodes of the graph. -/
theorem Unrolls.refused {catalog : Catalog} {nodes : List Node} {connections : List Connection}
    {x : Index} (hb : Index.Built catalog nodes connections x) {f : Fault} :
    ∀ {work : List String} {p q : Progress} {c : Chain}, Unrolls x work p c q →
      (∀ a ∈ work, (x.node? a).isSome) → f ∈ c.faults → Flow.Refused x f
  | _, _, _, _, .nil, _, h => by cases h
  | _, _, _, _, .skip _ h, hw, hf => h.refused hb (fun a ha => hw a (.tail _ ha)) hf
  | _, p, _, _, @Unrolls.halt _ id _ _ _ _ he, hw, hf => by
    obtain rfl := List.mem_singleton.mp hf
    exact ⟨p, id, hw id (.head _), he⟩
  | _, _, _, _, .step hf he hp hc, hw, h => by
    rcases List.mem_append.mp h with h | h
    · refine hp.refused hb (fun job hj a ha => ?_) h
      obtain ⟨port, -, heq⟩ := Flow.exists_of_mem_jobs hj ha
      exact Flow.isSome_of_mem_targets hb (heq ▸ ha)
    · refine hc.refused hb (fun a ha => ?_) h
      rcases List.mem_append.mp ha with ha | ha
      · obtain ⟨port, -, heq⟩ := Flow.exists_of_mem_tailTargets ha
        exact Flow.isSome_of_mem_targets hb (heq ▸ ha)
      · exact hw a (.tail _ ha)

theorem Lays.refused {catalog : Catalog} {nodes : List Node} {connections : List Connection}
    {x : Index} (hb : Index.Built catalog nodes connections x) {f : Fault} :
    ∀ {jobs : Flow.Jobs} {p q : Progress} {own : Parts}, Lays x jobs p own q →
      (∀ job ∈ jobs, ∀ a ∈ job.2, (x.node? a).isSome) → f ∈ own.faults → Flow.Refused x f
  | _, _, _, _, .nil, _, h => by cases h
  | _, _, _, _, .job hl hbody h, hj, hf => by
    rw [Item.part_faults fun hp => Unrolls.eq_done (hl hp ▸ hbody)] at hf
    rcases List.mem_append.mp hf with hf | hf
    · exact hbody.refused hb (hj _ (.head _)) hf
    · exact h.refused hb (fun job hm => hj job (.tail _ hm)) hf

end

namespace Script

variable {catalog : Catalog} {nodes : List Node} {connections : List Connection} {x : Index}

/-- The flow of an entry is laid out from some progress. -/
theorem lays_of_mem_flows (hb : Index.Built catalog nodes connections x) {n : PlacedNode}
    {flow : Parts} (h : (n, flow) ∈ flows x x.entries {}) :
    ∃ p now, Lays x (Flow.entryJobs x n) p flow now := by
  obtain ⟨before, after, hsplit⟩ := List.append_of_mem h
  obtain ⟨q, now, -, hlays⟩ := flows_split (awaiting_entries hb) hsplit
  exact ⟨_, now, hlays⟩

theorem refused_of_mem_faults (hb : Index.Built catalog nodes connections x) {n : PlacedNode}
    {flow : Parts} (h : (n, flow) ∈ flows x x.entries {}) {f : Fault} (hf : f ∈ flow.faults) :
    Flow.Refused x f := by
  obtain ⟨p, now, hlays⟩ := lays_of_mem_flows hb h
  refine hlays.refused hb (fun job hj a ha => ?_) hf
  obtain ⟨s, -, rfl⟩ := List.mem_map.mp hj
  exact hb.node_of_mem_targets ha

/-- **Why no script comes of a checked graph.** -/
theorem failure_of_generate {indent moduleId : String} {f : Failure}
    (hbuild : Index.build catalog nodes connections = .ok x)
    (hgen : generate catalog indent moduleId nodes connections = .error f) :
    ∃ n flow, (n, flow) ∈ flows x x.entries {} ∧
      ((∃ g ∈ flow.faults, f = .fault g) ∨
        (∃ id ∈ flow.nodes, ∃ m, x.node? id = some m ∧ Blocked x .recording [] m f) ∨
        EntryFunction.givenName? n = none ∧ f = .numberTooLong) := by
  have hb := Index.built_of_build hbuild
  have hfs : functions x moduleId = .error f := by
    rcases generate_error hgen with ⟨g, hg, -⟩ | ⟨y, hy, hfs⟩
    · cases hbuild.symm.trans hg
    · cases hbuild.symm.trans hy
      exact hfs
  obtain ⟨⟨n, flow⟩, hflow, hmake⟩ := exists_of_mapM_error hfs
  refine ⟨n, flow, hflow, ?_⟩
  rcases EntryFunction.walk_error_iff.mp ((EntryFunction.make_error_iff hb
    (flows_idle hflow)).mp hmake) with hwalk | ⟨-, hname⟩
  case inr => exact .inr (.inr hname)
  have hstop := Walk.parts_error hb flow (by simp [EntryFunction.initial_scopes]) hwalk
  -- the layout has looked up every node of the flow and its recipe
  obtain ⟨p, now, hlays⟩ := lays_of_mem_flows hb hflow
  cases hstop with
  | fault hm => exact .inl ⟨_, hm, rfl⟩
  | missing hm hnone =>
    obtain ⟨m, r, hm', -, -⟩ := hlays.inner hm
    rw [hnone] at hm'
    cases hm'
  | noRecipe hm hn hnone =>
    obtain ⟨m, r, hm', -, hr⟩ := hlays.inner hm
    rw [hn] at hm'
    cases hm'
    rw [hnone] at hr
    cases hr
  | blocked hm hn h => exact .inr (.inl ⟨_, hm, _, hn, h⟩)

end Script

end VisualScript
