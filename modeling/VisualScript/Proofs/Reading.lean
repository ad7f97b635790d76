import VisualScript.Proofs.Tables
import VisualScript.Script.Evaluation

/-!
# Proofs — Reading

How the reading of an output port runs.  `Evaluation.read` recurses on fuel through
`Evaluation.resolve`; here the recursion is opened once.  A property of reads and a property of
resolved inputs that are closed under the ways a read can go (`Fetching`) hold of every read that
succeeds (`Fetching.read`) and of every node whose inputs are resolved (`Fetching.inputs`).

* `bound`: the port has a value in an open scope.
* `inline`: the node is evaluated and its value written in place.
* `temporary`: the node is evaluated at the level of its placement, and its outputs are declared
  there.
-/

namespace VisualScript

namespace State

theorem freshVars_snd (stems : List String) (s : State) :
    (s.freshVars stems).2 = { s with counter := s.counter + stems.length } := by
  induction stems generalizing s with
  | nil => rfl
  | cons stem stems ih =>
    simp only [freshVars, freshVar, ih, List.length_cons]
    congr 1; omega

theorem freshVars_length (stems : List String) (s : State) :
    (s.freshVars stems).1.length = stems.length := by
  induction stems generalizing s with
  | nil => rfl
  | cons stem stems ih => simp only [freshVars, List.length_cons, ih]

/-- The state of an evaluation whose innermost scopes are hidden. -/
def lower (s : State) (hidden : Nat) : State := { s with scopes := s.scopes.drop hidden }

/-- The hidden scopes come back; the code made without them goes in front of the node that is
being rendered at the level below. -/
def raise (s : State) (hidden : Nat) (code : Code) (t : State) : Code × State :=
  if hidden = 0 then (code, t)
  else (.done, { t with
    scopes := s.scopes.take hidden ++
      Scopes.modifyTop (fun sc => { sc with hoisted := sc.hoisted ++ code }) t.scopes })

/-- The value of a slot after its node has been evaluated. -/
def fetch (t : State) (slot : Endpoint) : Option Expr × State :=
  match Scopes.lookup? slot t.scopes with
  | some (value, scopes) => (some value, { t with scopes := scopes })
  | none                 => (none, t)

@[simp] theorem lower_zero (s : State) : s.lower 0 = s := rfl

@[simp] theorem raise_zero (s : State) (code : Code) (t : State) : s.raise 0 code t = (code, t) :=
  rfl

@[simp] theorem fetch_reads (t : State) (slot : Endpoint) :
    (t.fetch slot).2.reads = t.reads := by
  unfold fetch
  split <;> rfl

end State

namespace Evaluation

variable {inputs : Inputs} {s s' : State}

@[simp] theorem note_scopes (x : Index) (pass : Pass) (n : PlacedNode) (s : State) :
    (note x pass n s).scopes = s.scopes := by
  unfold note
  split
  · split <;> rfl
  · rfl

@[simp] theorem note_counter (x : Index) (pass : Pass) (n : PlacedNode) (s : State) :
    (note x pass n s).counter = s.counter := by
  unfold note
  split
  · split <;> rfl
  · rfl

/-- What each binding keeps, the declarations of a node keep. -/
theorem declare_induct {P : State → Prop} {n : PlacedNode} :
    ∀ {outputs : List (String × Expr)} {s : State}, P s →
      (∀ o ∈ outputs, ∀ p, n.output? o.1 = some p → ∀ t v, P t →
        P (State.bind { t with counter := t.counter + 1 } ⟨n.node.id, p.id⟩ (.ofVar v))) →
      P (declare n outputs s).2
  | [], _, h, _ => h
  | (name, value) :: outputs, s, h, hstep => by
    rw [declare]
    split
    · exact declare_induct h fun o ho => hstep o (.tail _ ho)
    · rename_i p hp
      exact declare_induct (hstep _ (.head _) p hp s _ h) fun o ho => hstep o (.tail _ ho)

@[simp] theorem declare_reads (n : PlacedNode) (outputs : List (String × Expr)) (s : State) :
    (declare n outputs s).2.reads = s.reads :=
  declare_induct (P := (·.reads = s.reads)) rfl fun _ _ _ _ _ _ h => h

/-- What `emit` does: every input the outline mentions is there, the variables are fresh, and the
outputs are filled in with them. -/
theorem emit_ok {o : Outline} {em : Emission} (h : emit o inputs s = .ok (em, s')) :
    em.vars = (s.freshVars o.fresh).1 ∧ s' = { s with counter := s.counter + o.fresh.length } ∧
      o.outputs.mapM (outputValue inputs em.vars) = .ok em.outputs ∧
      ∀ i ∈ o.inputs, (inputs.lookup i).isSome := by
  unfold emit at h
  split at h
  · cases h
  · cases h
  · rename_i hf _
    obtain ⟨outs, ho, h⟩ := bind_eq_ok.mp h
    cases h
    refine ⟨rfl, State.freshVars_snd _ _, ho, fun i hi => ?_⟩
    have := List.find?_eq_none.mp hf i hi
    cases hl : inputs.lookup i with
    | none => simp [hl] at this
    | some _ => rfl

theorem emit_scopes {o : Outline} {em : Emission} (h : emit o inputs s = .ok (em, s')) :
    s'.scopes = s.scopes := by
  obtain ⟨-, rfl, -, -⟩ := emit_ok h
  rfl

theorem outputValue_fst {vars : List String} {o : String × Output} {v : String × Expr}
    (h : outputValue inputs vars o = .ok v) : v.1 = o.1 := by
  obtain ⟨name, out⟩ := o
  cases out with
  | expr t => cases h; rfl
  | copy i =>
    simp only [outputValue] at h
    split at h
    · cases h; rfl
    · cases h

/-- The outputs of a node are those of its outline. -/
theorem outputs_fst {vars : List String} {outs : List (String × Output)}
    {vs : List (String × Expr)} (h : outs.mapM (outputValue inputs vars) = .ok vs) :
    vs.map Prod.fst = outs.map Prod.fst := by
  have := mapM_ok h
  clear h
  induction this with
  | nil => rfl
  | cons hv _ ih => rw [List.map_cons, List.map_cons, outputValue_fst hv, ih]

theorem atLevel_ok {level : Nat} {act : State → Except Failure (Code × State)} {code : Code}
    (h : atLevel level s act = .ok (code, s')) :
    ∃ c t, act (s.lower (Scopes.top s.scopes - level)) = .ok (c, t) ∧
      (code, s') = s.raise (Scopes.top s.scopes - level) c t := by
  unfold atLevel at h
  obtain ⟨⟨c, t⟩, hact, h⟩ := bind_eq_ok.mp h
  refine ⟨c, t, hact, ?_⟩
  by_cases h0 : Scopes.top s.scopes - level = 0
  · simp only [h0, if_true] at h
    cases h
    simp [State.raise, h0]
  · simp only [h0, if_false] at h
    cases h
    simp [State.raise, h0]

end Evaluation

/-- Inputs of a node have been resolved on the way through the nodes `pending`. -/
def Evaluation.Resolved (x : Index) (pass : Pass) (pending : List String) (n : PlacedNode)
    (ts : List PortTemplate) (inputs : Inputs) (s : State) (inputs' : Inputs) (code : Code)
    (s' : State) : Prop :=
  ∃ fuel, resolve x n (read x pass fuel pending) ts inputs s = .ok (inputs', code, s')

open Evaluation

/-- A property `R` of reads and a property `I` of resolved inputs that are kept by every way in
which a read can go.  `pending` are the nodes whose evaluation is under way. -/
structure Fetching (x : Index) (pass : Pass)
    (R : (pending : List String) → Endpoint → State → Option Expr → Code → State → Prop)
    (I : (pending : List String) → PlacedNode → List PortTemplate → Inputs → State → Inputs →
      Code → State → Prop) : Prop where
  bound : ∀ {pending e s n value scopes}, x.node? e.node = some n →
    Scopes.lookup? e (note x pass n s).scopes = some (value, scopes) →
    R pending e s (some value) .done { note x pass n s with scopes := scopes }
  inline : ∀ {pending e s n r inputs code s₁ em s₂ value}, x.node? e.node = some n →
    Scopes.lookup? e (note x pass n s).scopes = none → n.hasExec = false → e.node ∉ pending →
    isInlined x n = true → Recipe.ofType? n.node.nodeType = some r →
    Resolved x pass (e.node :: pending) n n.definition.inputs [] (note x pass n s) inputs code s₁ →
    I (e.node :: pending) n n.definition.inputs [] (note x pass n s) inputs code s₁ →
    emit (r.outline x n) inputs s₁ = .ok (em, s₂) →
    em.outputs.lookup (x.portName e) = some value →
    R pending e s (some value) code s₂
  temporary : ∀ {pending e s n r hidden inputs code s₁ em s₂ value},
    x.node? e.node = some n →
    Scopes.lookup? e (note x pass n s).scopes = none → n.hasExec = false → e.node ∉ pending →
    isInlined x n = false → Recipe.ofType? n.node.nodeType = some r →
    hidden = Scopes.top (note x pass n s).scopes -
      placement x pass (note x pass n s).scopes e.node →
    Resolved x pass (e.node :: pending) n n.definition.inputs [] ((note x pass n s).lower hidden)
      inputs code s₁ →
    I (e.node :: pending) n n.definition.inputs [] ((note x pass n s).lower hidden)
      inputs code s₁ →
    emit (r.outline x n) inputs s₁ = .ok (em, s₂) →
    em.outputs.lookup (x.portName e) = some value →
    let made := declare n em.outputs s₂
    let placed := (note x pass n s).raise hidden (code ++ made.1) made.2
    R pending e s (placed.2.fetch e).1 placed.1 (placed.2.fetch e).2
  nil : ∀ {pending n inputs s}, I pending n [] inputs s inputs .done s
  skip : ∀ {pending n t ts inputs s inputs' code s'}, t.kind ≠ .data →
    I pending n ts inputs s inputs' code s' → I pending n (t :: ts) inputs s inputs' code s'
  connected : ∀ {pending n t ts inputs s e value code s₁ inputs' more s₂}, t.kind = .data →
    source? x n t = some e → R pending e s value code s₁ →
    Resolved x pass pending n ts (Assoc.set t.name value inputs) s₁ inputs' more s₂ →
    I pending n ts (Assoc.set t.name value inputs) s₁ inputs' more s₂ →
    I pending n (t :: ts) inputs s inputs' (code ++ more) s₂
  literal : ∀ {pending n t ts inputs s value inputs' code s'}, t.kind = .data →
    source? x n t = none → Evaluation.literal n t = .ok value →
    I pending n ts (Assoc.set t.name (some value) inputs) s inputs' code s' →
    I pending n (t :: ts) inputs s inputs' code s'

namespace Fetching

variable {x : Index} {pass : Pass}
  {R : List String → Endpoint → State → Option Expr → Code → State → Prop}
  {I : List String → PlacedNode → List PortTemplate → Inputs → State → Inputs → Code → State → Prop}

/-- Inputs are resolved one after the other, in the order of the templates. -/
theorem resolve_of_read (h : Fetching x pass R I) {fuel : Nat} {pending : List String}
    {n : PlacedNode}
    (hread : ∀ e s value code s', read x pass fuel pending e s = .ok (value, code, s') →
      R pending e s value code s') :
    ∀ (ts : List PortTemplate) {inputs inputs' : Inputs} {s s' : State} {code : Code},
      resolve x n (read x pass fuel pending) ts inputs s = .ok (inputs', code, s') →
        I pending n ts inputs s inputs' code s'
  | [], _, _, _, _, _, hr => by cases hr; exact h.nil
  | t :: ts, inputs, inputs', s, s', code, hr => by
    rw [Evaluation.resolve] at hr
    split at hr
    · rename_i hk
      exact h.skip hk (h.resolve_of_read hread ts hr)
    · rename_i hk
      have hk : t.kind = .data := by simpa using hk
      split at hr
      · rename_i e he
        obtain ⟨⟨value, c, s₁⟩, h₁, hr⟩ := bind_eq_ok.mp hr
        obtain ⟨⟨inputs₂, more, s₂⟩, h₂, hr⟩ := bind_eq_ok.mp hr
        cases hr
        exact h.connected hk he (hread _ _ _ _ _ h₁) ⟨fuel, h₂⟩ (h.resolve_of_read hread ts h₂)
      · rename_i he
        obtain ⟨value, h₁, hr⟩ := bind_eq_ok.mp hr
        exact h.literal hk he h₁ (h.resolve_of_read hread ts hr)

/-- A closed property holds of every read that succeeds. -/
theorem read (h : Fetching x pass R I) : ∀ (fuel : Nat) {pending : List String} {e : Endpoint}
    {s s' : State} {value : Option Expr} {code : Code},
    Evaluation.read x pass fuel pending e s = .ok (value, code, s') →
      R pending e s value code s' := by
  intro fuel
  induction fuel with
  | zero =>
    intro pending e s s' value code hr
    rw [Evaluation.read] at hr
    split at hr
    · cases hr
    · rename_i n hn
      simp only at hr
      split at hr
      · rename_i v ss hl
        cases hr
        exact h.bound hn hl
      · split at hr
        · cases hr
        · split at hr
          · cases hr
          · split at hr
            · cases hr
            · cases hr
            · rename_i heq _
              cases heq
  | succ fuel ih =>
    intro pending e s s' value code hr
    rw [Evaluation.read] at hr
    split at hr
    · cases hr
    rename_i n hn
    simp only at hr
    split at hr
    · rename_i v ss hl
      cases hr
      exact h.bound hn hl
    rename_i hl
    split at hr
    · cases hr
    rename_i hx
    have hx : n.hasExec = false := by simpa using hx
    split at hr
    · cases hr
    rename_i hp
    split at hr
    · cases hr
    · cases hr
    rename_i r heq hrec
    cases heq
    have hres : ∀ {ts inputs inputs' s s' code},
        resolve x n (Evaluation.read x pass fuel (e.node :: pending)) ts inputs s =
          .ok (inputs', code, s') → I (e.node :: pending) n ts inputs s inputs' code s' :=
      h.resolve_of_read (fun _ _ _ _ _ => ih) _
    split at hr
    · rename_i hi
      obtain ⟨⟨outs, v, c, s₃⟩, hev, hr⟩ := bind_eq_ok.mp hr
      obtain ⟨⟨inputs, c₁, s₁⟩, h₁, hev⟩ := bind_eq_ok.mp hev
      obtain ⟨⟨em, s₂⟩, h₂, hev⟩ := bind_eq_ok.mp hev
      simp only at hev
      split at hev
      · cases hev
      rename_i v' hv
      cases hev
      cases hr
      exact h.inline hn hl hx hp hi hrec ⟨fuel, h₁⟩ (hres h₁) h₂ hv
    · rename_i hi
      have hi : isInlined x n = false := by simpa using hi
      obtain ⟨⟨c, s₃⟩, hat, hr⟩ := bind_eq_ok.mp hr
      obtain ⟨c₂, t, hact, hraise⟩ := atLevel_ok hat
      obtain ⟨⟨outs, v, c₁, s₂⟩, hev, hact⟩ := bind_eq_ok.mp hact
      obtain ⟨⟨inputs, c₁', s₁⟩, h₁, hev⟩ := bind_eq_ok.mp hev
      obtain ⟨⟨em, s₂'⟩, h₂, hev⟩ := bind_eq_ok.mp hev
      simp only at hev
      split at hev
      · cases hev
      rename_i v' hv
      cases hev
      cases hact
      have key := h.temporary hn hl hx hp hi hrec rfl ⟨fuel, h₁⟩ (hres h₁) h₂ hv
      simp only [← hraise] at key
      simp only [State.fetch] at key
      split at hr
      · rename_i v₃ ss₃ hl₃
        cases hr
        simpa only [hl₃] using key
      · rename_i hl₃
        cases hr
        simpa only [hl₃] using key

theorem resolved (h : Fetching x pass R I) {pending : List String} {n : PlacedNode}
    {ts : List PortTemplate} {inputs inputs' : Inputs} {s s' : State} {code : Code}
    (hr : Resolved x pass pending n ts inputs s inputs' code s') :
    I pending n ts inputs s inputs' code s' :=
  let ⟨_, hr⟩ := hr
  h.resolve_of_read (fun _ _ _ _ _ => h.read _) _ hr

/-- A closed property holds of every node whose inputs are resolved. -/
theorem inputs (h : Fetching x pass R I) {n : PlacedNode} {s s' : State} {values : Inputs}
    {code : Code} (hr : Evaluation.inputs x pass n s = .ok (values, code, s')) :
    I [] n n.definition.inputs [] s values code s' := h.resolved ⟨_, hr⟩

end Fetching

end VisualScript
